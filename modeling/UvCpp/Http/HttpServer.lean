import UvCpp.Http.RadixTree
import UvCpp.Http.Request
import UvCpp.Http.Response
import UvCpp.Buffer.ListBuffer
import UvCpp.Buffer.CycleBuffer

/-!
# The HTTP server

The server has a radix tree of routes for each method. Received bytes go into the
connection's packet buffer, and the whole buffer is parsed on every arrival (`onMesage`):
until it is a whole request nothing happens, then the buffer is emptied and the request is
handed to the callback of its route.

A request arrives in chunks. A proper prefix of it never parses as whole, and never as an
error (`unpackAndCompleted_of_isPrefix`), so the callback is called on the last chunk, once, with
the request that was sent (`handledOnLast`), whatever the chunks are.
-/

namespace UvCpp.Http

open UvCpp.Cpp UvCpp.Buffer UvCpp.Systems

/-- The value of an enumerator of `Methon`. -/
def Methon.value : Methon → ℕ
  | .Get => 0
  | .Post => 1
  | .Head => 2
  | .Put => 3
  | .Delete => 4
  | .Connect => 5
  | .Options => 6
  | .Trace => 7
  | .Patch => 8
  | .Invalid => 9

/-- `uv::http::HttpServer`, with callbacks in `κ`; `none` is `nullptr`. -/
structure HttpServer (κ : Type) where
  /-- The routes, for each method. -/
  route_ : List (RadixTree (Option κ))
  /-- There are `Methon::Invalid` of them. -/
  size : route_.length = Methon.Invalid.value

/-- What happens when a request is handled. -/
structure Dispatch (κ : Type) where
  /-- The callback that is called. -/
  callback : κ
  /-- The request it is called with. -/
  req : Request
  /-- What is written to the connection. -/
  respData : Bytes

namespace HttpServer

variable {κ : Type}

/-- A new server. -/
def new : HttpServer κ := ⟨List.replicate 9 RadixTree.new, rfl⟩

/-- Registering a callback for a method and a path. -/
def register (methon : Methon) (s : HttpServer κ) (path : Bytes) (callback : Option κ) :
    Exec (HttpServer κ) :=
  match s.route_[methon.value]? with
  | none => .error .undefined
  | some route => do
    let route ← route.set path callback
    .ok ⟨s.route_.set methon.value route, by rw [List.length_set, s.size]⟩

/-- `Get`. -/
def Get : HttpServer κ → Bytes → Option κ → Exec (HttpServer κ) := register .Get

/-- `Post`. -/
def Post : HttpServer κ → Bytes → Option κ → Exec (HttpServer κ) := register .Post

/-- `Head`. -/
def Head : HttpServer κ → Bytes → Option κ → Exec (HttpServer κ) := register .Head

/-- `Put`. -/
def Put : HttpServer κ → Bytes → Option κ → Exec (HttpServer κ) := register .Put

/-- `Delete`. -/
def Delete : HttpServer κ → Bytes → Option κ → Exec (HttpServer κ) := register .Delete

/-- `Connect`. -/
def Connect : HttpServer κ → Bytes → Option κ → Exec (HttpServer κ) := register .Connect

/-- `Options`. -/
def Options : HttpServer κ → Bytes → Option κ → Exec (HttpServer κ) := register .Options

/-- `Trace`. -/
def Trace : HttpServer κ → Bytes → Option κ → Exec (HttpServer κ) := register .Trace

/-- `Patch`. -/
def Patch : HttpServer κ → Bytes → Option κ → Exec (HttpServer κ) := register .Patch

/-- A call to one of the nine. -/
structure Route (κ : Type) where
  /-- The method. -/
  methon : Methon
  /-- The path. -/
  path : Bytes
  /-- The callback. -/
  callback : Option κ
  /-- There are nine methods. -/
  known : methon ≠ .Invalid

/-- Make a call to one of the nine. -/
def addRoute (s : HttpServer κ) : Route κ → Exec (HttpServer κ)
  | ⟨.Get, path, callback, _⟩ => s.Get path callback
  | ⟨.Post, path, callback, _⟩ => s.Post path callback
  | ⟨.Head, path, callback, _⟩ => s.Head path callback
  | ⟨.Put, path, callback, _⟩ => s.Put path callback
  | ⟨.Delete, path, callback, _⟩ => s.Delete path callback
  | ⟨.Connect, path, callback, _⟩ => s.Connect path callback
  | ⟨.Options, path, callback, _⟩ => s.Options path callback
  | ⟨.Trace, path, callback, _⟩ => s.Trace path callback
  | ⟨.Patch, path, callback, _⟩ => s.Patch path callback

/-- A route table. -/
def addRoutes (routes : List (Route κ)) : Exec (HttpServer κ) := routes.foldlM addRoute new

variable {β : Type} [PacketBuffer β]

/-- `onMesage`, on a connection with the given packet buffer, if it has one: the buffer, and
the request that is handled, if one is. `call` is what a callback does to the response. -/
def onMesage (s : HttpServer κ) (call : κ → Request → Response → Response) (packetbuf : Option β)
    (data : Bytes) : Exec (Option β × Option (Dispatch κ)) :=
  match packetbuf with
  | none => .ok (none, none)
  | some packetbuf => do
    let (_, packetbuf) ← PacketBuffer.append packetbuf data
    let (_, out) ← PacketBuffer.readBufferN packetbuf [] (PacketBuffer.readSize packetbuf)
    let (rst, req) ← Request.unpackAndCompleted Request.new out
    match rst with
    | .Error => .ok (some (PacketBuffer.clear packetbuf).2, none)
    | .Success => do
      let packetbuf := (PacketBuffer.clear packetbuf).2
      match s.route_[req.line.methon_.value]? with
      | none => .error .undefined
      | some route => do
        match ← route.get req.line.path_ with
        | some (some callback) =>
          let resp := call callback req Response.new
          .ok (some packetbuf, some ⟨callback, req, Response.pack resp⟩)
        | _ => .ok (some packetbuf, none)
    | .Fail => .ok (some packetbuf, none)

/-! ### The routes -/

/-- The keys and values set in the tree of a method. -/
def settings (routes : List (Route κ)) (methon : Methon) : List (Bytes × Option κ) :=
  (routes.filter fun r => r.methon = methon).map fun r => (r.path, r.callback)

theorem value_lt {methon : Methon} (h : methon ≠ .Invalid) : methon.value < 9 := by
  cases methon <;> first | decide | exact absurd rfl h

theorem value_injective {m n : Methon} (h : m.value = n.value) : m = n := by
  cases m <;> cases n <;> first | rfl | exact absurd h (by decide)

/-- A call to one of the nine sets a key in the tree of its method. -/
theorem addRoute_eq {s : HttpServer κ} {r : Route κ} {route : RadixTree (Option κ)}
    (h : s.route_[r.methon.value]? = some route) : ∃ s', s.addRoute r = .ok s' ∧
      s'.route_ = s.route_.set r.methon.value ⟨route.root_.insert r.path r.callback⟩ := by
  have hreg : s.addRoute r = register r.methon s r.path r.callback := by
    obtain ⟨methon, path, callback, known⟩ := r
    cases methon <;> first | rfl | exact absurd rfl known
  rw [hreg]
  simp only [register, h, RadixTree.set_eq, Exec.ok_bind, Except.ok.injEq]
  exact ⟨_, rfl, rfl⟩

/-- **The route table.** Registering always succeeds, and the tree of a method is made of the
settings for that method, in their order. -/
theorem addRoutes_eq (routes : List (Route κ)) : ∃ s : HttpServer κ, addRoutes routes = .ok s ∧
    ∀ methon, methon ≠ .Invalid → ∃ route, s.route_[methon.value]? = some route ∧
      RadixTree.new.setAll (settings routes methon) = .ok route := by
  induction routes using List.reverseRecOn with
  | nil =>
    refine ⟨new, rfl, fun methon h => ⟨RadixTree.new, ?_, rfl⟩⟩
    rw [new, List.getElem?_replicate, if_pos (value_lt h)]
  | append_singleton routes r ih =>
    obtain ⟨s, hs, hroutes⟩ := ih
    obtain ⟨route, hget, hset⟩ := hroutes r.methon r.known
    have hlt : r.methon.value < s.route_.length := (List.getElem?_eq_some_iff.mp hget).1
    obtain ⟨s', hs', hroute'⟩ := addRoute_eq hget
    refine ⟨s', ?_, fun methon h => ?_⟩
    · rw [addRoutes, List.foldlM_append]
      change (addRoutes routes >>= _) = _
      rw [hs, Exec.ok_bind, List.foldlM_cons, hs']
      rfl
    · rw [hroute']
      by_cases hm : r.methon = methon
      · subst hm
        refine ⟨_, List.getElem?_set_self hlt, ?_⟩
        have hsettings : settings (routes ++ [r]) r.methon =
            settings routes r.methon ++ [(r.path, r.callback)] := by
          simp [settings]
        rw [hsettings, RadixTree.setAll, List.foldlM_append]
        change (RadixTree.new.setAll _ >>= _) = _
        rw [hset, Exec.ok_bind, List.foldlM_cons, RadixTree.set_eq]
        rfl
      · obtain ⟨route', hget', hset'⟩ := hroutes methon h
        refine ⟨route', ?_, ?_⟩
        · rw [List.getElem?_set_ne fun heq => hm (value_injective heq)]
          exact hget'
        · rw [← hset', settings, settings, List.filter_append]
          simp [hm]

/-- What is found for a path, if no path has a wildcard. -/
theorem get_route {routes : List (Route κ)} (hroutes : ∀ r ∈ routes, r.path ≠ [] ∧ WildCard ∉ r.path)
    {methon : Methon} (hmethon : ∃ r ∈ routes, r.methon = methon) {s : HttpServer κ}
    (hs : addRoutes routes = .ok s) : ∃ route, s.route_[methon.value]? = some route ∧
      ∀ path, route.get path = .ok (RadixTree.lastSet (settings routes methon) path) := by
  obtain ⟨r, hr, hrm⟩ := hmethon
  obtain ⟨s', hs', htrees⟩ := addRoutes_eq routes
  rw [hs, Except.ok.injEq] at hs'
  obtain ⟨route, hget, hset⟩ := htrees methon (hrm ▸ r.known)
  have hkvs : ∀ kv ∈ settings routes methon, kv.1 ≠ [] ∧ WildCard ∉ kv.1 := by
    rintro kv hkv
    obtain ⟨r', hr', rfl⟩ := List.mem_map.mp hkv
    exact hroutes r' (List.mem_filter.mp hr').1
  have hne : settings routes methon ≠ [] := by
    refine List.ne_nil_of_mem (a := (r.path, r.callback)) (List.mem_map.mpr ⟨r, ?_, rfl⟩)
    exact List.mem_filter.mpr ⟨hr, by simpa using hrm⟩
  obtain ⟨route', hset', hplain, hroot, hlookup⟩ := RadixTree.setAll_eq hkvs
  rw [hset, Except.ok.injEq] at hset'
  subst hset'
  refine ⟨route, hs' ▸ hget, fun path => ?_⟩
  rw [RadixTree.get, RadixTreeNodePtr.getNode_eq (hroot hne) hplain, hlookup]

/-! ### What an arrival does -/

variable (call : κ → Request → Response → Response)

/-- How a request is handled, by what is found for its path. -/
def handled (req : Request) : Option (Option κ) → Option (Dispatch κ)
  | some (some callback) => some ⟨callback, req, Response.pack (call callback req Response.new)⟩
  | _ => none

open LawfulPacketBuffer

variable [LawfulPacketBuffer β] {b : β} {s : HttpServer κ}

/-- What is parsed is what the buffer holds. -/
theorem append_read (hb : Valid b) {chunk : Bytes} (hfit : Fits β ((contents b).length + chunk.length)) :
    ∃ b', PacketBuffer.append b chunk = .ok (0, b') ∧ Valid b' ∧ contents b' = contents b ++ chunk ∧
      PacketBuffer.readBufferN b' [] (PacketBuffer.readSize b') = .ok (0, contents b ++ chunk) := by
  obtain ⟨b', happ, hb', hcont⟩ := append_of_fits hb hfit
  refine ⟨b', happ, hb', hcont, ?_⟩
  rw [readBufferN_of_le hb' (readSize_eq hb').le (by simp), readSize_eq hb', List.take_length, hcont]
  rfl

/-- A request that is not whole stays in the buffer. -/
theorem onMesage_of_fail (hb : Valid b) {chunk : Bytes}
    (hfit : Fits β ((contents b).length + chunk.length)) {req : Request}
    (hparse : Request.unpackAndCompleted Request.new (contents b ++ chunk) = .ok (.Fail, req)) :
    ∃ b', s.onMesage call (some b) chunk = .ok (some b', none) ∧ Valid b' ∧
      contents b' = contents b ++ chunk := by
  obtain ⟨b', happ, hb', hcont, hread⟩ := append_read hb hfit
  exact ⟨b', by simp [onMesage, happ, hread, hparse], hb', hcont⟩

/-- A request that is whole is taken out of the buffer and handled. -/
theorem onMesage_of_success (hb : Valid b) {chunk : Bytes}
    (hfit : Fits β ((contents b).length + chunk.length)) {req : Request}
    (hparse : Request.unpackAndCompleted Request.new (contents b ++ chunk) = .ok (.Success, req))
    {route : RadixTree (Option κ)} (hroute : s.route_[req.line.methon_.value]? = some route)
    {found : Option (Option κ)} (hget : route.get req.line.path_ = .ok found) :
    ∃ b', s.onMesage call (some b) chunk = .ok (some b', handled call req found) ∧ Valid b' ∧
      contents b' = [] := by
  obtain ⟨b', happ, hb', -, hread⟩ := append_read hb hfit
  obtain ⟨-, hvalid, hnil⟩ := clear_eq hb'
  refine ⟨_, ?_, hvalid, hnil⟩
  simp only [onMesage, happ, hread, hparse, Exec.ok_bind, hroute, hget]
  match found with
  | some (some callback) => rfl
  | some none => rfl
  | none => rfl

/-- The chunks of a request are handled by the last one. -/
theorem runAll_onMesage {r : Request} (hr : r.Sendable) {route : RadixTree (Option κ)}
    (hroute : s.route_[r.line.methon_.value]? = some route) {found : Option (Option κ)}
    (hget : route.get r.line.path_ = .ok found) {chunks : List Bytes} (hne : chunks ≠ [])
    (hchunks : ∀ chunk ∈ chunks, chunk ≠ []) (hb : Valid b)
    (h : contents b ++ chunks.flatten = r.pack) (hfit : ∀ n ≤ r.pack.length, Fits β n) :
    ∃ b', runAll (s.onMesage call) (some b) chunks = .ok (some b',
        List.replicate (chunks.length - 1) none ++ [handled call r.received found]) ∧
      Valid b' ∧ contents b' = [] := by
  induction chunks generalizing b with
  | nil => exact absurd rfl hne
  | cons chunk chunks ih =>
    have hle : (contents b).length + chunk.length ≤ r.pack.length := by
      rw [← h, List.flatten_cons, List.length_append, List.length_append]
      omega
    rw [List.flatten_cons, ← List.append_assoc] at h
    cases chunks with
    | nil =>
      -- the last chunk
      rw [List.flatten_nil, List.append_nil] at h
      have hparse : Request.unpackAndCompleted Request.new (contents b ++ chunk) =
          .ok (.Success, r.received) := h ▸ Request.unpackAndCompleted_pack hr
      obtain ⟨b', hon, hb', hnil⟩ := onMesage_of_success call hb (hfit _ hle) hparse hroute hget
      exact ⟨b', runAll_cons_of hon rfl, hb', hnil⟩
    | cons chunk' chunks =>
      have hlt : contents b ++ chunk ≠ r.pack := by
        intro heq
        rw [heq] at h
        exact hchunks chunk' (by simp) (List.append_eq_nil_iff.mp (List.append_right_eq_self.mp h)).1
      obtain ⟨req, hparse⟩ := Request.unpackAndCompleted_of_isPrefix hr (h ▸ List.prefix_append _ _) hlt
      obtain ⟨b₁, hon, hb₁, hcont⟩ := onMesage_of_fail call (s := s) hb (hfit _ hle) hparse
      obtain ⟨b', hrun, hb', hnil⟩ := ih (by simp)
        (fun c hc => hchunks c (List.mem_cons_of_mem chunk hc)) hb₁ (hcont ▸ h)
      exact ⟨b', runAll_cons_of hon hrun, hb', hnil⟩

/-! ### Segmentation -/

/-- Fed chunk by chunk, the connection handles one request, or none, on the last chunk, nothing
before it, and ends with an empty buffer. -/
def Dispatches {β : Type} [PacketBuffer β] (s : HttpServer κ) (call : κ → Request → Response → Response)
    (b : β) (chunks : List Bytes) (d : Option (Dispatch κ)) : Prop :=
  ∃ b', runAll (s.onMesage call) (some b) chunks =
      .ok (some b', List.replicate (chunks.length - 1) none ++ [d]) ∧ PacketBuffer.readSize b' = 0

/-- What is meant by handling a request independently of how it is cut: a connection with an
empty buffer that can hold the request hands it, on the last chunk, to the callback last
registered for its method and path, if there is one and it is not null. -/
def HandledOnLast (routes : List (Route κ)) (call : κ → Request → Response → Response) (r : Request)
    (chunks : List Bytes) : Prop :=
  ∃ s, addRoutes routes = .ok s ∧
    (∀ b : ListBuffer, b.buffer_ = [] → s.Dispatches call b chunks (handled call r.received
      (RadixTree.lastSet (settings routes r.line.methon_) r.line.path_))) ∧
    ∀ (CycleBufferSize : ℕ) (b : CycleBuffer CycleBufferSize), b.Valid → b.contents = [] →
      r.pack.length ≤ CycleBufferSize - 1 → s.Dispatches call b chunks (handled call r.received
        (RadixTree.lastSet (settings routes r.line.methon_) r.line.path_))

/-- **Dispatch does not depend on segmentation**, for any routes without wildcards, one at least
for the request's method, and for any request whose head has less than `2³¹` bytes. -/
theorem handledOnLast (routes : List (Route κ)) (call : κ → Request → Response → Response) (r : Request)
    (chunks : List Bytes) (hroutes : ∀ route ∈ routes, route.path ≠ [] ∧ WildCard ∉ route.path)
    (hmethon : ∃ route ∈ routes, route.methon = r.line.methon_) (hr : r.Sendable)
    (hchunks : ∀ chunk ∈ chunks, chunk ≠ []) (h : chunks.flatten = r.pack) :
    HandledOnLast routes call r chunks := by
  obtain ⟨s, hs, -⟩ := addRoutes_eq routes
  obtain ⟨route, hroute, hget⟩ := get_route hroutes hmethon hs
  have hpos : 0 < r.pack.length := by
    rw [Request.pack, Message.pack_eq, Message.head]
    simp
  have hne : chunks ≠ [] := by
    rintro rfl
    simp [← h] at hpos
  refine ⟨s, hs, fun b hnil => ?_, fun C b hb hnil hfit => ?_⟩
  · obtain ⟨b', hrun, -, hnil'⟩ := runAll_onMesage call (b := b) hr hroute (hget _) hne hchunks
      trivial (by rw [show contents b = [] from hnil, List.nil_append, h]) fun _ _ => rfl
    exact ⟨b', hrun, congrArg List.length hnil'⟩
  · obtain ⟨b', hrun, hb', hnil'⟩ := runAll_onMesage call (b := b) hr hroute (hget _) hne hchunks
      hb (by rw [show contents b = [] from hnil, List.nil_append, h])
      fun n hn => decide_eq_true (show n < C by omega)
    exact ⟨b', hrun, (readSize_eq hb').trans (congrArg List.length hnil')⟩

/-- A request with a content of two bytes. -/
def sampleRequest : Request :=
  ⟨⟨.Http1_1, .Post, bytes "/ab", [], .ofList [(bytes "k", bytes "v")]⟩,
    .ofList [(bytes "Content-Length", bytes "2")], bytes "\r\n"⟩

theorem sendable_sampleRequest : sampleRequest.Sendable :=
  ⟨⟨by decide, by decide, by decide, by decide +kernel, by decide, by decide +kernel⟩, by decide,
    .inl ⟨by decide, by decide⟩, by decide⟩

/-- It arrives in three chunks, and its route was registered twice. -/
theorem handledOnLast_sample :
    HandledOnLast
      [⟨.Post, bytes "/ab", some 0, by decide⟩, ⟨.Post, bytes "/a", some 1, by decide⟩,
        ⟨.Post, bytes "/ab", some 2, by decide⟩]
      (fun _ _ resp => resp) sampleRequest
      [sampleRequest.pack.take 5, (sampleRequest.pack.drop 5).take 40, sampleRequest.pack.drop 45] :=
  handledOnLast _ _ sampleRequest _ (by decide) ⟨_, List.mem_cons_self, by decide⟩
    sendable_sampleRequest (by decide) (by decide)

/-! ### Long heads -/

/-- A request with a path of `n + 1` bytes. -/
def longRequest (n : ℕ) : Request := ⟨⟨.Http1_1, .Get, 47 :: List.replicate n 97, [], ∅⟩, ∅, []⟩

theorem plain_longRequest (n : ℕ) : Request.Plain (longRequest n).line := by
  have hparams : (longRequest n).line.urlParms_.toList = [] := Std.ExtTreeMap.toList_eq_nil_iff.mpr rfl
  refine ⟨by simp [longRequest], by simp [longRequest], rfl, fun c hc => ?_, ?_, ?_⟩
  · rcases List.mem_cons.mp hc with rfl | hc
    · decide
    · rw [List.eq_of_mem_replicate hc]
      decide
  · simp [hparams]
  · simp [hparams]

theorem plainHeads_longRequest (n : ℕ) : PlainHeads (longRequest n).heads_ :=
  show PlainHeads ∅ by decide

theorem length_head_longRequest (n : ℕ) :
    ((longRequest n).head (Request.firstLine (longRequest n).line)).length = n + 18 := by
  have hparams : (longRequest n).line.urlParms_.toList = [] := Std.ExtTreeMap.toList_eq_nil_iff.mpr rfl
  have hheads : (longRequest n).heads_.toList = [] := Std.ExtTreeMap.toList_eq_nil_iff.mpr rfl
  have hmethon : (Request.MethonToStr (longRequest n).line.methon_).length = 3 := rfl
  have hversion : (HttpVersionToStr (longRequest n).line.version_).length = 8 := rfl
  have hpath : (longRequest n).line.path_.length = n + 1 := by simp [longRequest]
  rw [Message.head, hheads, Request.firstLine_eq, Request.written_of_slash (plain_longRequest n).slash,
    Request.target, hparams]
  simp only [joinLines, List.map_nil, List.flatMap_nil, Request.query, List.append_nil, List.length_append,
    List.length_cons, List.length_nil, hmethon, hversion, hpath]
  omega

theorem pack_longRequest (n : ℕ) :
    (longRequest n).pack = (longRequest n).head (Request.firstLine (longRequest n).line) := by
  rw [Request.pack, Message.pack_eq]
  exact List.append_nil _

/-- From `2³¹` bytes on, the place where the content begins is no `int`, and `onMesage` throws. -/
theorem onMesage_longRequest {n : ℕ} (h : 2 ^ 31 ≤ n) (h' : n + 18 < 2 ^ 32) (hb : Valid b)
    (hnil : contents b = []) (hfit : Fits β (n + 18)) :
    s.onMesage call (some b) (longRequest n).pack = .error .thrown := by
  have hlen : (longRequest n).pack.length = n + 18 := by
    rw [pack_longRequest, length_head_longRequest]
  have hfit : Fits β ((contents b).length + (longRequest n).pack.length) := by
    rw [hnil, hlen, List.length_nil, Nat.zero_add]
    exact hfit
  obtain ⟨b', happ, -, -, hread⟩ := append_read hb hfit
  have hplain := plain_longRequest n
  have hunpack : Request.unpack Request.new (longRequest n).pack = .error .thrown :=
    Message.unpack_pack_long hplain.firstLine.1 hplain.firstLine.2 (plainHeads_longRequest n)
      (by rw [length_head_longRequest]; omega) (by rw [← Request.pack, hlen]; exact h')
      (Request.unpackUrl_firstLine hplain _) _
  rw [hnil, List.nil_append] at hread
  simp [onMesage, happ, hread, Request.unpackAndCompleted, hunpack]

/-- The request with a path of `n + 1` bytes is not handled by a cycle buffer that can hold it. -/
theorem not_dispatches_longRequest {n : ℕ} (h : 2 ^ 31 ≤ n) (h' : n + 18 < 2 ^ 32)
    (d : Option (Dispatch κ)) (array : {a : Bytes // a.length = 2 ^ 32}) :
    ¬ s.Dispatches call (CycleBuffer.new array) [(longRequest n).pack] d := by
  rintro ⟨b', hrun, -⟩
  have hthrow := onMesage_longRequest call (s := s) (b := CycleBuffer.new array) h h'
    (CycleBuffer.valid_new array (by omega)) (CycleBuffer.contents_new array) (decide_eq_true h')
  simp [runAll, hthrow] at hrun

/-- With a head of more than `2³¹` bytes and an empty cycle buffer larger than that, a request that
meets every other condition is not handled, whatever is registered for it. -/
theorem not_handledOnLast_longRequest :
    Request.Plain (longRequest (2 ^ 31)).line ∧ PlainHeads (longRequest (2 ^ 31)).heads_ ∧
      (longRequest (2 ^ 31)).Framed ∧
      ∃ s : HttpServer Unit,
        addRoutes [⟨.Get, (longRequest (2 ^ 31)).line.path_, some (), by decide⟩] = .ok s ∧
        ∃ b : CycleBuffer (2 ^ 32), b.Valid ∧ b.contents = [] ∧
          (longRequest (2 ^ 31)).pack.length ≤ 2 ^ 32 - 1 ∧
          ∀ d, ¬ s.Dispatches (fun _ _ resp => resp) b [(longRequest (2 ^ 31)).pack] d := by
  refine ⟨plain_longRequest _, plainHeads_longRequest _, .inr ⟨by decide, rfl⟩, ?_⟩
  obtain ⟨s, hs, -⟩ := addRoutes_eq
    [(⟨.Get, (longRequest (2 ^ 31)).line.path_, some (), by decide⟩ : Route Unit)]
  have array : {a : Bytes // a.length = 2 ^ 32} := ⟨_, List.length_replicate (n := 2 ^ 32) (a := 0)⟩
  refine ⟨s, hs, CycleBuffer.new array, CycleBuffer.valid_new array (by omega),
    CycleBuffer.contents_new array, ?_, fun d => ?_⟩
  · rw [pack_longRequest, length_head_longRequest]
    omega
  · exact not_dispatches_longRequest _ (n := 2 ^ 31) le_rfl (by omega) d array

end HttpServer

end UvCpp.Http
