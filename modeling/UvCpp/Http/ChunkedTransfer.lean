import UvCpp.Http.HttpClient
import UvCpp.Http.ChunkCuts

/-!
# A response in chunks

A server may send a content in chunks, with `Transfer-Encoding: chunked`, and the connection cuts what it sends
once more, anywhere. The client looks at all that has come each time. Until the line of the last chunk has ended
it waits; from then on it reports the content, put together, with everything that arrives. When the connection
is closed it reports once more, but there the content is as it was sent, with the sizes in it: `onConnectStatus`
reads with `unpack`, which does not know of chunks (`chunked_reports`).
-/

namespace UvCpp.Http

open UvCpp.Cpp UvCpp.Systems

namespace Response

/-- A response whose content comes in chunks. -/
structure InChunks (r : Response) : Prop extends Headed r where
  /-- It says so. -/
  chunked : r.heads_[bytes "Transfer-Encoding"]? = some (bytes "chunked")
  /-- It has no length. -/
  noLength : r.contentLength = none

variable {r : Response} {ds : List Bytes} {w rest data : Bytes}

/-- A part of what is sent: it is whole when the line of the last chunk has ended. -/
theorem InChunks.unpackAndCompleted_of_isPrefix (h : InChunks r) (hcoding : Coding ds w)
    (hdata : data <+: r.head (firstLine r.line) ++ (w ++ rest)) (hlen : data.length < 2 ^ 63) :
    ∃ resp, unpackAndCompleted new data =
      .ok (if (r.head (firstLine r.line)).length + w.length ≤ data.length then .Success else .Fail, resp) ∧
        ((r.head (firstLine r.line)).length + w.length ≤ data.length → resp = { r with content_ := ds.flatten }) := by
  by_cases hhead : data.length < (r.head (firstLine r.line)).length
  · refine ⟨new, ?_, fun hle => by omega⟩
    rw [if_neg (by omega)]
    exact unpackAndCompleted_of_ne (h.unpack_of_isPrefix hdata hhead) (by decide)
  · obtain ⟨content, rfl, hcontent⟩ := exists_of_isPrefix_append hdata (not_lt.mp hhead)
    have hnone : Message.contentLength { r with content_ := content } = none := h.noLength
    have hlength : content.length < 2 ^ 63 := by
      rw [List.length_append] at hlen
      omega
    rw [unpackAndCompleted_of_none (h.unpack_head content) hnone, if_pos h.chunked, isCompletedChunked]
    by_cases hwhole : w.length ≤ content.length
    · have hw := List.prefix_of_prefix_length_le (List.prefix_append w rest) hcontent hwhole
      rw [if_pos (by rw [List.length_append]; omega), chunkLoop_of_coding hcoding hw hlength]
      exact ⟨_, rfl, fun _ => rfl⟩
    · have hcut := not_le.mp hwhole
      have hw := List.prefix_of_prefix_length_le hcontent (List.prefix_append w rest) hcut.le
      rw [if_neg (by rw [List.length_append]; omega), chunkLoop_of_cut hcoding hw hcut hlength]
      refine ⟨_, rfl, fun hle => ?_⟩
      rw [List.length_append] at hle
      omega

end Response

namespace HttpClient

variable {κ : Type} {callback : κ} {r : Response} {ds : List Bytes} {w rest : Bytes}

/-- What is reported of the chunks of a stream, of which `n` bytes have come before: `report` at each of them, from
the one on with which the first `whole` bytes have come. -/
def reportsFrom (whole : ℕ) (report : Action κ) : ℕ → List Bytes → List (List (Action κ))
  | _, [] => []
  | n, data :: chunks =>
    (if whole ≤ n + data.length then [report] else []) :: reportsFrom whole report (n + data.length) chunks

/-- The chunks of a stream, one after another. -/
theorem runAll_messages (h : r.InChunks) (hcoding : Coding ds w) {c : HttpClient κ}
    (hcallback : c.callback_ = some callback) {chunks : List Bytes}
    (hstream : c.buffer_ ++ chunks.flatten = r.head (Response.firstLine r.line) ++ (w ++ rest))
    (hroom : (c.buffer_ ++ chunks.flatten).length < 2 ^ 32) :
    runAll handle c (chunks.map .message) = .ok ({ c with buffer_ := c.buffer_ ++ chunks.flatten },
      reportsFrom ((r.head (Response.firstLine r.line)).length + w.length)
        (.call callback .Success (some { r with content_ := ds.flatten })) c.buffer_.length chunks) := by
  induction chunks generalizing c with
  | nil => rw [List.flatten_nil, List.append_nil]; rfl
  | cons data chunks ih =>
    rw [List.flatten_cons, ← List.append_assoc] at hstream hroom ⊢
    have hlen := hroom
    rw [List.length_append, List.length_append] at hlen
    obtain ⟨resp, hresp, hwhole⟩ := h.unpackAndCompleted_of_isPrefix hcoding (hstream ▸ List.prefix_append _ _)
      (show (c.buffer_ ++ data).length < 2 ^ 63 by rw [List.length_append]; omega)
    have hone : c.handle (.message data) = .ok ({ c with buffer_ := c.buffer_ ++ data },
        if (r.head (Response.firstLine r.line)).length + w.length ≤ c.buffer_.length + data.length then
          [.call callback .Success (some { r with content_ := ds.flatten })] else []) := by
      rw [handle, onMessage_eq (by omega), if_pos (by omega), hresp, Exec.ok_bind]
      rw [List.length_append] at hwhole ⊢
      by_cases hle : (r.head (Response.firstLine r.line)).length + w.length ≤ c.buffer_.length + data.length
      · simp [hwhole hle, hle, onResp, hcallback]
      · simp [hle]
    have hrest := ih (c := { c with buffer_ := c.buffer_ ++ data }) hcallback hstream hroom
    rw [List.length_append] at hrest
    exact runAll_cons_of hone hrest

/-- **What is reported of a response in chunks**, however it is cut: the content, put together, with everything that
arrives from the end of the last chunk's line on, and no error; and when the connection is closed, the content as it
was sent. -/
theorem chunked_reports (c : HttpClient κ) (callback : κ) (req : Request) (h : r.InChunks) (hcoding : Coding ds w)
    {chunks : List Bytes} (hstream : chunks.flatten = r.head (Response.firstLine r.line) ++ (w ++ rest))
    (hroom : chunks.flatten.length < 2 ^ 32) :
    ∃ c', runAll handle ((c.setOnResp (some callback)).Req req)
        (.status .OnConnectSuccess :: (chunks.map .message ++ [.status .OnConnnectClose])) =
      .ok (c', [.write (req.pack.take (req.pack.length % 2 ^ 32))] ::
        (reportsFrom ((r.head (Response.firstLine r.line)).length + w.length)
          (.call callback .Success (some { r with content_ := ds.flatten })) 0 chunks ++
        [[.call callback .Success (some { r with content_ := w ++ rest })]])) := by
  have hmessages := runAll_messages h hcoding
    (c := { c with callback_ := some callback, req_ := req, buffer_ := [], isConnected := true }) rfl hstream hroom
  have hclose : HttpClient.handle
      { c with callback_ := some callback, req_ := req, buffer_ := chunks.flatten, isConnected := true }
      (.status .OnConnnectClose) =
      .ok ({ c with callback_ := some callback, req_ := req, buffer_ := chunks.flatten, isConnected := false },
        [.call callback .Success (some { r with content_ := w ++ rest })]) := by
    rw [handle, onConnectStatus]
    dsimp only
    rw [hstream, h.unpack_head]
    rfl
  exact ⟨_, runAll_cons_of rfl (runAll_append_eq_ok_iff.mpr ⟨_, _, _, hmessages, runAll_cons_of hclose rfl, rfl⟩)⟩

/-- A response with a chunk of two bytes. -/
def sampleChunked : Response :=
  ⟨⟨.Http1_1, 200, bytes "OK"⟩, .ofList [(bytes "Transfer-Encoding", bytes "chunked")], []⟩

/-- It comes in three parts, and the second has the line of the last chunk. -/
theorem chunked_reports_sample : ∃ c' os,
    runAll handle (((new : HttpClient Bool).setOnResp (some true)).Req .new) (.status .OnConnectSuccess ::
      ([sampleChunked.head (Response.firstLine sampleChunked.line) ++ bytes "2\r\nh", bytes "i\r\n0\r\n",
        bytes "\r\n"].map .message ++ [.status .OnConnnectClose])) = .ok (c', os) ∧ calls os = 3 := by
  have hchunks : sampleChunked.InChunks :=
    ⟨⟨⟨by decide, by decide, by decide⟩, by decide, by decide, by decide⟩, by decide, by decide⟩
  have hcoding : Coding [bytes "hi"] (bytes "2\r\nhi\r\n0\r\n") :=
    .last (.snoc .nil (l := bytes "2") ⟨by decide, by decide, by decide⟩ (by decide))
      (l := bytes "\r\n0") ⟨by decide, by decide, by decide⟩
  have hstream : [sampleChunked.head (Response.firstLine sampleChunked.line) ++ bytes "2\r\nh", bytes "i\r\n0\r\n",
      bytes "\r\n"].flatten = sampleChunked.head (Response.firstLine sampleChunked.line) ++
        (bytes "2\r\nhi\r\n0\r\n" ++ bytes "\r\n") := by decide
  obtain ⟨c', hrun⟩ := chunked_reports new true .new hchunks hcoding hstream (by decide)
  exact ⟨c', _, hrun, by decide⟩

end HttpClient

end UvCpp.Http
