import UvCpp.Http.HttpClient
import UvCpp.Http.Completed

/-!
# The receive buffer of the HTTP client

While a response is not whole, every chunk is copied behind the ones before it. `onMessage` computes the new
size of the buffer with 32-bit numbers, of a size that has 64 bits: once the buffer and the chunk have `2³²`
bytes together, the buffer is made shorter and the chunk is copied past its end. `allSteps_adds_iff` says that
this is the only way for a chunk to be lost, over all chunks of a response.
-/

namespace UvCpp.Http.HttpClient

open UvCpp.Cpp UvCpp.Systems

variable {κ : Type}

/-- The first half of `onMessage`: the buffer, when the chunk has been copied. -/
def received (buffer data : Bytes) : Exec Bytes :=
  let bufsize := buffer.length % 2 ^ 32
  let datasize := (bufsize + data.length % 2 ^ 32) % 2 ^ 32
  copyTo (resize buffer datasize) bufsize data

theorem onMessage_eq_received (c : HttpClient κ) (data : Bytes) : c.onMessage data = (do
    let buffer ← received c.buffer_ data
    let (rst, resp) ← Response.unpackAndCompleted .new buffer
    if rst = .Success then .ok ({ c with buffer_ := buffer }, c.onResp .Success (some resp))
    else if rst = .Error then .ok ({ c with buffer_ := [] }, [])
    else .ok ({ c with buffer_ := buffer }, [])) := rfl

/-- The chunk is copied behind what the buffer holds, or past the end of the buffer. -/
theorem received_eq {buffer : Bytes} (hroom : buffer.length < 2 ^ 32) (data : Bytes) : received buffer data =
    if buffer.length + data.length < 2 ^ 32 then .ok (buffer ++ data) else .error .undefined := by
  rw [received, Nat.mod_eq_of_lt hroom]
  split
  · next hlt =>
    rw [Nat.mod_eq_of_lt (show data.length < 2 ^ 32 by omega), Nat.mod_eq_of_lt hlt, copyTo_resize]
  · next hge =>
    have hwrap : (buffer.length + data.length % 2 ^ 32) % 2 ^ 32 < 2 ^ 32 := Nat.mod_lt _ (by decide)
    refine if_neg ?_
    rw [length_resize]
    omega

/-- The response that has been received is neither whole nor wrong. -/
def Pending (buffer : Bytes) : Prop := ∃ resp, Response.unpackAndCompleted .new buffer = .ok (.Fail, resp)

/-- A call to `onMessage` copies the chunk into the buffer, behind what it held, and does nothing else. -/
def Adds (c : HttpClient κ) (data : Bytes) : Prop :=
  received c.buffer_ data = .ok (c.buffer_ ++ data) ∧
    c.onMessage data = .ok ({ c with buffer_ := c.buffer_ ++ data }, [])

/-- The response is pending all along, as its chunks come in. -/
def AllPending (buffer : Bytes) (chunks : List Bytes) : Prop :=
  ∀ before after, chunks = before ++ after → before ≠ [] → Pending (buffer ++ before.flatten)

theorem AllPending.head {buffer data : Bytes} {chunks : List Bytes} (h : AllPending buffer (data :: chunks)) :
    Pending (buffer ++ data) := by
  have hone := h [data] chunks rfl (List.cons_ne_nil data [])
  rwa [List.flatten_singleton] at hone

theorem AllPending.tail {buffer data : Bytes} {chunks : List Bytes} (h : AllPending buffer (data :: chunks)) :
    AllPending (buffer ++ data) chunks := by
  rintro before after rfl -
  rw [List.append_assoc, ← List.flatten_cons]
  exact h (data :: before) after rfl (List.cons_ne_nil data before)

variable {c : HttpClient κ} {data : Bytes}

/-- **One chunk**: it is added as long as the buffer and the chunk have less than `2³²` bytes. -/
theorem adds_iff (hroom : c.buffer_.length < 2 ^ 32) (hpending : Pending (c.buffer_ ++ data)) :
    Adds c data ↔ c.buffer_.length + data.length < 2 ^ 32 := by
  obtain ⟨resp, hresp⟩ := hpending
  have hreceived := received_eq hroom data
  constructor
  · rintro ⟨hadds, -⟩
    by_contra hge
    rw [if_neg hge, hadds] at hreceived
    cases hreceived
  · intro hlt
    rw [if_pos hlt] at hreceived
    refine ⟨hreceived, ?_⟩
    rw [onMessage_eq_received, hreceived, Exec.ok_bind, hresp]
    rfl

/-- **All chunks of a response**: they are added if the buffer has less than `2³²` bytes with all of them. -/
theorem allSteps_adds_iff {chunks : List Bytes} (hroom : c.buffer_.length < 2 ^ 32)
    (hpending : AllPending c.buffer_ chunks) :
    AllSteps onMessage Adds c chunks ↔ c.buffer_.length + chunks.flatten.length < 2 ^ 32 := by
  induction chunks generalizing c with
  | nil => exact iff_of_true .nil hroom
  | cons data chunks ih =>
    have hone := adds_iff hroom hpending.head
    have hrest (hlt : c.buffer_.length + data.length < 2 ^ 32) :=
      ih (c := { c with buffer_ := c.buffer_ ++ data }) (by rwa [List.length_append]) hpending.tail
    simp only [List.length_append, List.flatten_cons] at hrest ⊢
    constructor
    · intro h
      have hlt := hone.mp h.head
      have := (hrest hlt).mp (h.tail h.head.2)
      omega
    · intro h
      have hlt : c.buffer_.length + data.length < 2 ^ 32 := by omega
      have hadds := hone.mpr hlt
      exact .cons_of hadds hadds.2 ((hrest hlt).mpr (by omega))

/-- **When the receive buffer does not overflow**: from `Req` on, as long as the response is neither whole nor
wrong, every call to `onMessage` adds its chunk to the buffer if and only if all chunks together have less than
`2³²` bytes. -/
theorem receive_iff (c : HttpClient κ) (req : Request) (chunks : List Bytes) (hpending : AllPending [] chunks) :
    AllSteps onMessage Adds (c.Req req) chunks ↔ chunks.flatten.length < 2 ^ 32 := by
  have hiff := allSteps_adds_iff (c := c.Req req) (by exact Nat.two_pow_pos 32) hpending
  rwa [show (c.Req req).buffer_.length = 0 from rfl, Nat.zero_add] at hiff

/-- A first line in two chunks. -/
theorem receive_iff_sample : AllSteps onMessage Adds ((new : HttpClient Unit).Req .new)
    [bytes "HTTP/1.1 ", bytes "200 OK\r\n"] := by
  refine (receive_iff new .new [bytes "HTTP/1.1 ", bytes "200 OK\r\n"] ?_).mpr (by decide)
  intro before after hsplit hne
  have hprefix : before ∈ [bytes "HTTP/1.1 ", bytes "200 OK\r\n"].inits :=
    (List.mem_inits _ _).mpr ⟨after, hsplit.symm⟩
  simp only [List.inits, List.map_cons, List.map_nil, List.mem_cons, List.not_mem_nil, or_false] at hprefix
  obtain rfl | rfl | rfl := hprefix
  · exact absurd rfl hne
  · exact ⟨_, rfl⟩
  · exact ⟨_, rfl⟩

/-! ### A response without an end -/

/-- Bytes without a CR hold no blank line. -/
theorem pending_of_notMem {buffer : Bytes} (h : 13 ∉ buffer) : Pending buffer := by
  have hsplit : SplitHttpOfCRLF buffer = .ok (-1, []) := by
    rw [splitHttpOfCRLF_eq, bytes_blank, find_of_drop_notMem List.drop_zero h]
  exact ⟨_, Response.unpackAndCompleted_of_ne (by rw [Response.unpack, Message.unpack, hsplit]; rfl) (by decide)⟩

/-- Two chunks fit into the buffer, and a third does not. -/
theorem overflow_of_le {n : ℕ} (htwo : n + n < 2 ^ 32) (hthree : 2 ^ 32 ≤ n + n + n) :
    AllPending [] [List.replicate n 97, List.replicate n 97, List.replicate n 97] ∧
      runAll onMessage ((new : HttpClient Unit).Req .new) [List.replicate n 97, List.replicate n 97] =
        .ok ({ (new : HttpClient Unit).Req .new with
          buffer_ := List.replicate n 97 ++ List.replicate n 97 }, [[], []]) ∧
      received (List.replicate n 97 ++ List.replicate n 97) (List.replicate n 97) = .error .undefined := by
  have hletter {l : Bytes} (h : ∀ x ∈ l, x = 97) : Pending l := by
    refine pending_of_notMem fun hmem => ?_
    have := h 13 hmem
    cases this
  generalize hchunk : List.replicate n (97 : UInt8) = chunk
  have hall : ∀ x ∈ chunk, x = 97 := by
    rw [← hchunk]
    exact fun x hx => List.eq_of_mem_replicate hx
  have hlen : chunk.length = n := by rw [← hchunk, List.length_replicate]
  have hpending : AllPending [] [chunk, chunk, chunk] := by
    rintro before after hsplit -
    refine hletter fun x hx => ?_
    obtain ⟨l, hl, hxl⟩ := List.mem_flatten.mp hx
    have hmem : l ∈ [chunk, chunk, chunk] := hsplit ▸ List.mem_append_left after hl
    have hl : l = chunk := by simpa using hmem
    exact hall x (hl ▸ hxl)
  refine ⟨hpending, ?_, ?_⟩
  · have hfirst : Adds ((new : HttpClient Unit).Req .new) chunk := by
      refine (adds_iff (by exact Nat.two_pow_pos 32) hpending.head).mpr ?_
      change 0 + chunk.length < 2 ^ 32
      omega
    have hsecond : Adds { (new : HttpClient Unit).Req .new with buffer_ := [] ++ chunk } chunk := by
      refine (adds_iff ?_ hpending.tail.head).mpr ?_
      · change chunk.length < 2 ^ 32
        omega
      · change chunk.length + chunk.length < 2 ^ 32
        omega
    exact runAll_cons_of hfirst.2 (runAll_cons_of hsecond.2 rfl)
  · rw [received_eq (by rw [List.length_append]; omega), if_neg]
    rw [List.length_append]
    omega

/-- **The receive buffer overflows**: a response without a blank line is never whole, and its third chunk of
`2³¹ - 1` bytes is copied past the end of the buffer. -/
theorem not_receive :
    AllPending [] [List.replicate (2 ^ 31 - 1) 97, List.replicate (2 ^ 31 - 1) 97, List.replicate (2 ^ 31 - 1) 97] ∧
      runAll onMessage ((new : HttpClient Unit).Req .new)
        [List.replicate (2 ^ 31 - 1) 97, List.replicate (2 ^ 31 - 1) 97] =
          .ok ({ (new : HttpClient Unit).Req .new with
            buffer_ := List.replicate (2 ^ 31 - 1) 97 ++ List.replicate (2 ^ 31 - 1) 97 }, [[], []]) ∧
      received (List.replicate (2 ^ 31 - 1) 97 ++ List.replicate (2 ^ 31 - 1) 97) (List.replicate (2 ^ 31 - 1) 97) =
        .error .undefined :=
  overflow_of_le (by norm_num) (by norm_num)

end UvCpp.Http.HttpClient
