import UvCpp.Http.HttpServer

/-!
# What the server parses

`onMesage` puts what arrives into the packet buffer and parses all that the buffer holds. `gathered`
is its first half, and `verdict` is what the parser says on an arrival.

The parser compares the length that a request gives with all the bytes behind its head. So a
request is seen only if some chunk ends where the request ends (`served_iff`); with one byte more in
the chunk it is not, then or later (`runAll_of_hidden`).

A cycle buffer refuses a chunk that does not fit, and `onMesage` does not ask. The bytes that are
parsed are those that came, without a hole, exactly as long as nothing fits any more once a chunk
was refused (`unbroken_iff`).
-/

namespace UvCpp.Http.HttpServer

open UvCpp.Cpp UvCpp.Buffer UvCpp.Systems

variable {κ β : Type} [PacketBuffer β]

/-- What `onMesage` does before it parses: the return code of `append`, the buffer, and the bytes
to parse. -/
def gathered (packetbuf : β) (data : Bytes) : Exec (ℤ × β × Bytes) := do
  let (code, packetbuf) ← PacketBuffer.append packetbuf data
  let (_, out) ← PacketBuffer.readBufferN packetbuf [] (PacketBuffer.readSize packetbuf)
  .ok (code, packetbuf, out)

/-- What the parser says of them. -/
def verdict (packetbuf : β) (data : Bytes) : Exec (ParseResult × Request) := do
  let (_, _, out) ← gathered packetbuf data
  Request.unpackAndCompleted Request.new out

open LawfulPacketBuffer

variable [LawfulPacketBuffer β] {b : β} {s : HttpServer κ} (call : κ → Request → Response → Response)

/-- A chunk that fits is parsed behind what is held. -/
theorem gathered_of_fits (hb : Valid b) {chunk : Bytes}
    (hfit : Fits β ((contents b).length + chunk.length)) :
    ∃ b', gathered b chunk = .ok (0, b', contents b ++ chunk) ∧ Valid b' ∧
      contents b' = contents b ++ chunk := by
  obtain ⟨b', happ, hb', hcont, hread⟩ := append_read hb hfit
  exact ⟨b', by simp [gathered, happ, hread], hb', hcont⟩

/-- Behind one that does not, what is held is parsed again. -/
theorem gathered_of_not_fits (hb : Valid b) {chunk : Bytes}
    (hfit : ¬ Fits β ((contents b).length + chunk.length)) :
    gathered b chunk = .ok (-1, b, contents b) := by
  have hread : PacketBuffer.readBufferN b [] (PacketBuffer.readSize b) = .ok (0, contents b) := by
    rw [readBufferN_of_le hb (readSize_eq hb).le (by simp), readSize_eq hb, List.take_length]
    rfl
  simp [gathered, append_of_not_fits hb hfit, hread]

/-- In either case the buffer stays a buffer, and what it holds is parsed. -/
theorem exists_gathered (hb : Valid b) (chunk : Bytes) :
    ∃ code b', gathered b chunk = .ok (code, b', contents b') ∧ Valid b' := by
  by_cases hfit : Fits β ((contents b).length + chunk.length)
  · obtain ⟨b', hgather, hb', hcont⟩ := gathered_of_fits hb hfit
    exact ⟨0, b', hcont ▸ hgather, hb'⟩
  · exact ⟨-1, b, gathered_of_not_fits hb hfit, hb⟩

theorem verdict_of_fits (hb : Valid b) {chunk : Bytes}
    (hfit : Fits β ((contents b).length + chunk.length)) :
    verdict b chunk = Request.unpackAndCompleted Request.new (contents b ++ chunk) := by
  obtain ⟨b', hgather, -, -⟩ := gathered_of_fits hb hfit
  rw [verdict, hgather]
  rfl

/-! ### Bytes behind a request -/

/-- By the time the last byte of a request has come the parser says that a request is whole, with
the given first line and the headers and the content of the request. -/
def Served (s : HttpServer κ) (call : κ → Request → Response → Response) {β : Type} [PacketBuffer β]
    (b : β) (r : Request) (line : RequestLine) (chunks : List Bytes) : Prop :=
  ∃ before chunk after b' dispatched, chunks = before ++ chunk :: after ∧
    before.flatten.length < r.pack.length ∧
      runAll (s.onMesage call) (some b) before = .ok (some b', dispatched) ∧
        verdict b' chunk = .ok (.Success, ⟨line, r.heads_, r.content_⟩)

/-- Some chunk ends with the last byte of the request. -/
def EndsChunk (r : Request) (chunks : List Bytes) : Prop :=
  ∃ front, front <+: chunks ∧ front.flatten = r.pack

/-- As long as no chunk ends with the last byte of the request, nothing is handled and everything
stays in the buffer. -/
theorem runAll_of_hidden {r : Request} {line : RequestLine} (hr : r.Delimited line) {extra : Bytes}
    {chunks : List Bytes} (hb : Valid b) (h : contents b ++ chunks.flatten <+: r.pack ++ extra)
    (hfit : ∀ n ≤ (contents b ++ chunks.flatten).length, Fits β n)
    (hne : ∀ front, front ≠ [] → front <+: chunks →
      (contents b ++ front.flatten).length ≠ r.pack.length) :
    ∃ b', runAll (s.onMesage call) (some b) chunks =
        .ok (some b', List.replicate chunks.length none) ∧ Valid b' ∧
      contents b' = contents b ++ chunks.flatten := by
  induction chunks generalizing b with
  | nil => exact ⟨b, rfl, hb, by simp⟩
  | cons chunk chunks ih =>
    rw [List.flatten_cons, ← List.append_assoc] at h hfit
    have hle : (contents b).length + chunk.length ≤ (contents b ++ chunk ++ chunks.flatten).length := by
      simp
    have hlen : (contents b ++ chunk).length ≠ r.pack.length := by
      simpa using hne [chunk] (by simp) (by simp)
    obtain ⟨req, hparse⟩ := hr.unpackAndCompleted_of_ne ((List.prefix_append _ _).trans h) hlen
    obtain ⟨b₁, hon, hb₁, hcont⟩ := onMesage_of_fail call (s := s) hb (hfit _ hle) hparse
    rw [← hcont] at h hfit
    obtain ⟨b', hrun, hb', hcont'⟩ := ih hb₁ h hfit fun front _ hfront => by
      have := hne (chunk :: front) (by simp) (by simpa using hfront)
      rwa [List.flatten_cons, ← List.append_assoc, ← hcont] at this
    refine ⟨b', runAll_cons_of hon hrun, hb', ?_⟩
    rw [hcont', hcont, List.flatten_cons, List.append_assoc]

/-- Chunks that come before the last byte of a request are kept. -/
theorem runAll_of_short {r : Request} {line : RequestLine} (hr : r.Delimited line) {extra : Bytes}
    {chunks : List Bytes} (hb : Valid b) (hnil : contents b = [])
    (h : chunks.flatten <+: r.pack ++ extra) (hfit : ∀ n ≤ chunks.flatten.length, Fits β n)
    (hlt : chunks.flatten.length < r.pack.length) :
    ∃ b', runAll (s.onMesage call) (some b) chunks =
        .ok (some b', List.replicate chunks.length none) ∧ Valid b' ∧ contents b' = chunks.flatten := by
  have hprefix : contents b ++ chunks.flatten <+: r.pack ++ extra := by
    rw [hnil]
    exact h
  have hrun := runAll_of_hidden call (s := s) hr hb hprefix
    (by simpa [hnil] using hfit) fun front _ hfront => by
      obtain ⟨after, rfl⟩ := hfront
      simp only [hnil, List.nil_append, List.flatten_append, List.length_append] at hlt ⊢
      omega
  simpa [hnil] using hrun

/-- The chunk with which a text is complete, if one ends there: some bytes are missing before it. -/
theorem exists_last_chunk {text : Bytes} (hne : text ≠ []) {front : List Bytes}
    (h : front.flatten = text) : ∃ before chunk after, front = before ++ chunk :: after ∧
      before.flatten ++ chunk = text ∧ before.flatten.length < text.length := by
  induction front using List.reverseRecOn with
  | nil => exact absurd h.symm hne
  | append_singleton front chunk ih =>
    rw [List.flatten_append, List.flatten_singleton] at h
    cases chunk with
    | nil =>
      -- nothing came with the last chunk
      obtain ⟨before, chunk, after, rfl, htext, hlt⟩ := ih (by simpa using h)
      exact ⟨before, chunk, after ++ [[]], by simp, htext, hlt⟩
    | cons c chunk =>
      refine ⟨front, c :: chunk, [], rfl, h, ?_⟩
      rw [← h, List.length_append, List.length_cons]
      omega

/-- A request is seen only if a chunk ends with it. -/
theorem Served.endsChunk {r : Request} {line : RequestLine} (hr : r.Delimited line) {extra : Bytes}
    {chunks : List Bytes} (hb : Valid b) (hnil : contents b = []) (h : chunks.flatten = r.pack ++ extra)
    (hfit : ∀ n ≤ chunks.flatten.length, Fits β n) (hserved : s.Served call b r line chunks) :
    EndsChunk r chunks := by
  obtain ⟨before, chunk, after, b', dispatched, rfl, hlt, hrun, hverdict⟩ := hserved
  rw [List.flatten_append, List.flatten_cons, ← List.append_assoc] at h hfit
  have hpre : before.flatten ++ chunk <+: r.pack ++ extra := h ▸ List.prefix_append _ _
  obtain ⟨b₁, hrun', hb₁, hcont⟩ := runAll_of_short call (s := s) hr hb hnil
    ((List.prefix_append _ _).trans hpre)
    (fun n hn => hfit n (by rw [List.length_append, List.length_append]; omega)) hlt
  rw [hrun', Except.ok.injEq, Prod.mk.injEq, Option.some.injEq] at hrun
  obtain ⟨rfl, -⟩ := hrun
  rw [verdict_of_fits hb₁ (hfit _ (by simp [hcont])), hcont] at hverdict
  have hlen : (before.flatten ++ chunk).length = r.pack.length := by
    by_contra hne
    obtain ⟨req, hfail⟩ := hr.unpackAndCompleted_of_ne hpre hne
    simp [hfail] at hverdict
  refine ⟨before ++ [chunk], ⟨after, by simp⟩, ?_⟩
  have hpack : r.pack <+: r.pack ++ extra := List.prefix_append _ _
  simpa using (List.prefix_of_prefix_length_le hpre hpack hlen.le).eq_of_length hlen

/-- And if a chunk ends with it, it is seen. -/
theorem EndsChunk.served {r : Request} {line : RequestLine} (hr : r.Delimited line) {chunks : List Bytes}
    (hb : Valid b) (hnil : contents b = []) (hfit : ∀ n ≤ chunks.flatten.length, Fits β n)
    (hends : EndsChunk r chunks) : s.Served call b r line chunks := by
  obtain ⟨front, ⟨rest, rfl⟩, hfront⟩ := hends
  have hne : r.pack ≠ [] := by
    rw [Request.pack, Message.pack_eq, Message.head]
    simp
  obtain ⟨before, chunk, after, rfl, hpack, hlt⟩ := exists_last_chunk hne hfront
  have hflat : ((before ++ chunk :: after) ++ rest).flatten =
      before.flatten ++ chunk ++ (after ++ rest).flatten := by simp
  rw [hflat, List.length_append, List.length_append] at hfit
  have hpre : before.flatten <+: r.pack ++ [] := by
    rw [← hpack, List.append_assoc]
    exact List.prefix_append _ _
  obtain ⟨b', hrun, hb', hcont⟩ := runAll_of_short call (s := s) hr hb hnil hpre
    (fun n hn => hfit n (by omega)) hlt
  refine ⟨before, chunk, after ++ rest, b', _, by simp, hlt, hrun, ?_⟩
  rw [verdict_of_fits hb' (hfit _ (by rw [hcont]; omega)), hcont, hpack]
  exact hr.unpackAndCompleted_pack

/-- **A request with bytes behind it is seen exactly if a chunk ends with it**, whatever the bytes,
in either buffer. -/
theorem served_iff (s : HttpServer κ) (call : κ → Request → Response → Response) (r : Request)
    (line : RequestLine) (extra : Bytes) (chunks : List Bytes) (hr : r.Delimited line)
    (h : chunks.flatten = r.pack ++ extra) :
    (∀ b : ListBuffer, b.buffer_ = [] → (s.Served call b r line chunks ↔ EndsChunk r chunks)) ∧
    ∀ (CycleBufferSize : ℕ) (b : CycleBuffer CycleBufferSize), b.Valid → b.contents = [] →
      chunks.flatten.length ≤ CycleBufferSize - 1 →
        (s.Served call b r line chunks ↔ EndsChunk r chunks) := by
  refine ⟨fun b hnil => ?_, fun C b hb hnil hle => ?_⟩
  · have hfit : ∀ n ≤ chunks.flatten.length, Fits ListBuffer n := fun _ _ => rfl
    exact ⟨fun hserved => hserved.endsChunk call hr trivial hnil h hfit,
      fun hends => hends.served call hr trivial hnil hfit⟩
  · have hpos : 1 ≤ C := Nat.zero_lt_of_lt hb.write
    have hfit : ∀ n ≤ chunks.flatten.length, Fits (CycleBuffer C) n := fun n hn =>
      decide_eq_true (show n < C by omega)
    exact ⟨fun hserved => hserved.endsChunk call hr hb hnil h hfit,
      fun hends => hends.served call hr hb hnil hfit⟩

/-- The beginning of a second request. -/
def nextRequest : Bytes := bytes "GET "

theorem delimited_sampleRequest : sampleRequest.Delimited sampleRequest.line :=
  sendable_sampleRequest.delimited (by decide) (by decide)

/-- A request with a line feed in the value of a header. -/
def feedRequest : Request :=
  { sampleRequest with heads_ := sampleRequest.heads_.insert (bytes "k") (bytes "a\nb") }

theorem delimited_feedRequest : feedRequest.Delimited feedRequest.line :=
  ⟨⟨by decide, by decide, by decide +kernel⟩, by decide +kernel,
    Request.unpackUrl_firstLine sendable_sampleRequest.line _, bytes "2", by decide +kernel, by decide⟩

/-- The second request begins in a chunk of its own. -/
theorem served_iff_sample :
    (new : HttpServer Unit).Served (fun _ _ resp => resp) ListBuffer.new feedRequest
      feedRequest.line [feedRequest.pack.take 5, feedRequest.pack.drop 5, nextRequest] :=
  ((served_iff new _ feedRequest _ nextRequest _ delimited_feedRequest (by decide +kernel)).1
    ListBuffer.new rfl).mpr ⟨[feedRequest.pack.take 5, feedRequest.pack.drop 5], ⟨[nextRequest], rfl⟩,
      by decide +kernel⟩

/-- It begins in the chunk in which the first one ends, and in neither buffer is the first one seen. -/
theorem not_served_sample :
    ¬ (new : HttpServer Unit).Served (fun _ _ resp => resp) ListBuffer.new sampleRequest
        sampleRequest.line [sampleRequest.pack ++ nextRequest] ∧
      ∀ array : {a : Bytes // a.length = 32768},
        ¬ (new : HttpServer Unit).Served (fun _ _ resp => resp) (CycleBuffer.new array) sampleRequest
          sampleRequest.line [sampleRequest.pack ++ nextRequest] := by
  have hends : ¬ EndsChunk sampleRequest [sampleRequest.pack ++ nextRequest] := by
    rintro ⟨front, hfront, hpack⟩
    rcases List.prefix_cons_iff.mp hfront with rfl | ⟨rest, rfl, hrest⟩
    · exact absurd hpack (by decide)
    · rw [List.prefix_nil.mp hrest] at hpack
      exact absurd hpack (by decide)
  have hflat : [sampleRequest.pack ++ nextRequest].flatten = sampleRequest.pack ++ nextRequest := by simp
  refine ⟨fun hserved => hends ?_, fun array hserved => hends ?_⟩
  · exact hserved.endsChunk _ delimited_sampleRequest trivial rfl hflat fun _ _ => rfl
  · refine hserved.endsChunk _ delimited_sampleRequest (CycleBuffer.valid_new array (by decide))
      (CycleBuffer.contents_new array) hflat fun n hn => decide_eq_true ?_
    exact lt_of_le_of_lt hn (by decide)

/-! ### Chunks that do not fit -/

omit [LawfulPacketBuffer β] in
/-- The buffer that `onMesage` leaves: what was gathered, or nothing unless the request is not whole. -/
theorem onMesage_eq_ok {b₁ : β} {chunk out : Bytes} {code : ℤ} {rst : ParseResult} {req : Request}
    {left : Option β} {d : Option (Dispatch κ)} (hgather : gathered b chunk = .ok (code, b₁, out))
    (hparse : Request.unpackAndCompleted Request.new out = .ok (rst, req))
    (h : s.onMesage call (some b) chunk = .ok (left, d)) :
    left = some (if rst = .Fail then b₁ else (PacketBuffer.clear b₁).2) := by
  simp only [gathered, Exec.bind_eq_ok_iff, Prod.exists, Except.ok.injEq, Prod.mk.injEq] at hgather
  obtain ⟨_, _, happ, _, _, hread, rfl, rfl, rfl⟩ := hgather
  simp only [onMesage, happ, hread, hparse, Exec.ok_bind] at h
  cases rst with
  | Fail =>
    cases h
    rfl
  | Error =>
    cases h
    rfl
  | Success =>
    simp only at h
    split at h
    · cases h
    · obtain ⟨found, -, h⟩ := Exec.bind_eq_ok_iff.mp h
      split at h
      · cases h
        rfl
      · cases h
        rfl

/-- A connection, with what has come since its buffer was last cleared. -/
structure Session (β : Type) where
  /-- The packet buffer. -/
  packetbuf : β
  /-- The chunks that came since it was cleared. -/
  since : List Bytes
  /-- Whether one of them was refused. -/
  refused : Bool

/-- A new connection. -/
def Session.new (packetbuf : β) : Session β := ⟨packetbuf, [], false⟩

/-- A chunk arrives: `onMesage`, and a note of what came. -/
def arrive (s : HttpServer κ) (call : κ → Request → Response → Response) {β : Type} [PacketBuffer β]
    (x : Session β) (data : Bytes) : Exec (Session β × Option (Dispatch κ)) := do
  let (code, _, _) ← gathered x.packetbuf data
  let (rst, _) ← verdict x.packetbuf data
  let (packetbuf, dispatch) ← s.onMesage call (some x.packetbuf) data
  let packetbuf := packetbuf.getD x.packetbuf
  if rst = .Fail then .ok (⟨packetbuf, x.since ++ [data], x.refused || code ≠ 0⟩, dispatch)
  else .ok (⟨packetbuf, [], false⟩, dispatch)

/-- On an arrival the bytes that are parsed are the first of those that came since the buffer was
cleared, and no byte is appended if a chunk was refused since then. -/
def Unbroken (x : Session β) (data : Bytes) : Prop :=
  ∃ code packetbuf out, gathered x.packetbuf data = .ok (code, packetbuf, out) ∧
    out <+: (x.since ++ [data]).flatten ∧ (x.refused = true → code = 0 → data = [])

/-- How many bytes there are in those of the chunks that fit, one after another, when chunks of the given
sizes come to an empty buffer. -/
def held (fits : ℕ → Bool) (sizes : List ℕ) : ℕ :=
  sizes.foldl (fun n size => if fits (n + size) then n + size else n) 0

/-- One of the chunks does not fit behind those before it. -/
def Overflows (fits : ℕ → Bool) (sizes : List ℕ) : Prop :=
  ∃ before size, before ++ [size] <+: sizes ∧ ¬ fits (held fits before + size)

/-- Behind a chunk that did not fit there comes none with a byte in it that fits: what counts are the sizes of the
chunks since the buffer was cleared. -/
def StillFull {CycleBufferSize : ℕ} (x : Session (CycleBuffer CycleBufferSize)) (data : Bytes) : Prop :=
  Overflows (fun n => n < CycleBufferSize) (x.since.map List.length) →
    data = [] ∨ CycleBufferSize ≤ held (fun n => n < CycleBufferSize) (x.since.map List.length) + data.length

theorem held_concat (fits : ℕ → Bool) (sizes : List ℕ) (size : ℕ) : held fits (sizes ++ [size]) =
    if fits (held fits sizes + size) then held fits sizes + size else held fits sizes := by
  rw [held, List.foldl_append]
  rfl

theorem overflows_concat {fits : ℕ → Bool} {sizes : List ℕ} {size : ℕ} :
    Overflows fits (sizes ++ [size]) ↔ Overflows fits sizes ∨ ¬ fits (held fits sizes + size) := by
  constructor
  · rintro ⟨before, size', hprefix, hfull⟩
    rcases List.prefix_concat_iff.mp hprefix with heq | hprefix
    · obtain ⟨rfl, hsize⟩ := List.append_inj' heq rfl
      cases hsize
      exact .inr hfull
    · exact .inl ⟨before, size', hprefix, hfull⟩
  · rintro (⟨before, size', hprefix, hfull⟩ | hfull)
    · exact ⟨before, size', hprefix.trans (List.prefix_append _ _), hfull⟩
    · exact ⟨sizes, size, List.prefix_rfl, hfull⟩

theorem not_overflows_nil (fits : ℕ → Bool) : ¬ Overflows fits [] := by
  rintro ⟨before, size, hprefix, -⟩
  exact absurd (List.prefix_nil.mp hprefix) (by simp)

omit [LawfulPacketBuffer β] in
/-- What a step of a session can be. -/
theorem arrive_eq_ok {x y : Session β} {data : Bytes} {d : Option (Dispatch κ)}
    (h : s.arrive call x data = .ok (y, d)) :
    ∃ code b' out, gathered x.packetbuf data = .ok (code, b', out) ∧
      (y = ⟨b', x.since ++ [data], x.refused || code ≠ 0⟩ ∨ y = ⟨(PacketBuffer.clear b').2, [], false⟩) := by
  simp only [arrive, Exec.bind_eq_ok_iff, Prod.exists] at h
  obtain ⟨code, b', out, hgather, rst, req, hverdict, left, d', hon, h⟩ := h
  rw [verdict, hgather] at hverdict
  refine ⟨code, b', out, hgather, ?_⟩
  rw [onMesage_eq_ok call hgather hverdict hon] at h
  split at h
  · cases h
    exact .inl rfl
  · cases h
    exact .inr rfl

/-- What is held is the first of what came, and all of it if nothing was refused. -/
structure Followed (x : Session β) : Prop where
  /-- The buffer is one. -/
  valid : Valid x.packetbuf
  /-- It holds the first of what came. -/
  isPrefix : contents x.packetbuf <+: x.since.flatten
  /-- It holds all of what came, if nothing was refused. -/
  whole : x.refused = false → contents x.packetbuf = x.since.flatten
  /-- It holds what fits. -/
  held : (contents x.packetbuf).length = held (Fits β) (x.since.map List.length)
  /-- What does not fit is refused. -/
  refused : x.refused = true ↔ Overflows (Fits β) (x.since.map List.length)

theorem Followed.new (hb : Valid b) (hnil : contents b = []) : Followed (.new b) := by
  refine ⟨hb, ?_, fun _ => hnil, congrArg List.length hnil, ?_⟩
  · rw [Session.new, hnil]
    exact List.nil_prefix
  · exact iff_of_false (by simp [Session.new]) (not_overflows_nil _)

/-- As long as that is so, the bytes parsed are unbroken if nothing comes behind a refused chunk. -/
theorem Followed.unbroken_step_iff {x : Session β} (hx : Followed x) (data : Bytes) :
    Unbroken x data ↔
      (x.refused = true → data = [] ∨ ¬ Fits β ((contents x.packetbuf).length + data.length)) := by
  by_cases hfit : Fits β ((contents x.packetbuf).length + data.length)
  · obtain ⟨b', hgather, -, -⟩ := gathered_of_fits hx.valid hfit
    constructor
    · rintro ⟨code, packetbuf, out, hgather', -, hempty⟩ hrefused
      rw [hgather, Except.ok.injEq, Prod.mk.injEq] at hgather'
      exact .inl (hempty hrefused hgather'.1.symm)
    · intro hfull
      have hempty : x.refused = true → data = [] := fun hrefused =>
        (hfull hrefused).resolve_right (not_not_intro hfit)
      refine ⟨0, b', _, hgather, ?_, fun hrefused _ => hempty hrefused⟩
      rw [List.flatten_append, List.flatten_singleton]
      cases hrefused : x.refused with
      | false => rw [hx.whole hrefused]
      | true =>
        rw [hempty hrefused, List.append_nil, List.append_nil]
        exact hx.isPrefix
  · have hgather := gathered_of_not_fits hx.valid hfit
    refine iff_of_true ⟨-1, _, _, hgather, ?_, fun _ hcode => absurd hcode (by decide)⟩ fun _ => .inr hfit
    rw [List.flatten_append]
    exact hx.isPrefix.trans (List.prefix_append _ _)

/-- A step whose bytes are unbroken keeps it so. -/
theorem Followed.arrive {x y : Session β} {data : Bytes} {d : Option (Dispatch κ)} (hx : Followed x)
    (hdata : Unbroken x data) (h : s.arrive call x data = .ok (y, d)) : Followed y := by
  have hfull := (hx.unbroken_step_iff data).mp hdata
  obtain ⟨code, b', out, hgather, rfl | rfl⟩ := arrive_eq_ok call h
  · by_cases hfit : Fits β ((contents x.packetbuf).length + data.length)
    · obtain ⟨b₁, hgather', hb₁, hcont⟩ := gathered_of_fits hx.valid hfit
      rw [hgather', Except.ok.injEq, Prod.mk.injEq, Prod.mk.injEq] at hgather
      obtain ⟨rfl, rfl, -⟩ := hgather
      have hfit' : Fits β (HttpServer.held (Fits β) (x.since.map List.length) + data.length) := hx.held ▸ hfit
      refine ⟨hb₁, ?_, fun hrefused => ?_, ?_, ?_⟩
      · simp only [hcont, List.flatten_append, List.flatten_singleton]
        cases hrefused : x.refused with
        | false => rw [hx.whole hrefused]
        | true =>
          rw [(hfull hrefused).resolve_right (not_not_intro hfit), List.append_nil, List.append_nil]
          exact hx.isPrefix
      · simp only [hcont, List.flatten_append, List.flatten_singleton]
        rw [hx.whole (by simpa using hrefused)]
      · dsimp only
        rw [hcont, List.length_append, List.map_append, List.map_singleton, held_concat, if_pos hfit', hx.held]
      · rw [List.map_append, List.map_singleton, overflows_concat, ← hx.refused]
        simp [hfit']
    · rw [gathered_of_not_fits hx.valid hfit, Except.ok.injEq, Prod.mk.injEq, Prod.mk.injEq] at hgather
      obtain ⟨rfl, rfl, -⟩ := hgather
      have hfull : ¬ Fits β (HttpServer.held (Fits β) (x.since.map List.length) + data.length) := hx.held ▸ hfit
      refine ⟨hx.valid, ?_, fun hrefused => ?_, ?_, ?_⟩
      · rw [List.flatten_append]
        exact hx.isPrefix.trans (List.prefix_append _ _)
      · simp at hrefused
      · dsimp only
        rw [List.map_append, List.map_singleton, held_concat, if_neg hfull, hx.held]
      · rw [List.map_append, List.map_singleton, overflows_concat]
        exact iff_of_true (by simp) (.inr hfull)
  · obtain ⟨code', b₁, hgather', hb₁⟩ := exists_gathered hx.valid data
    rw [hgather', Except.ok.injEq, Prod.mk.injEq, Prod.mk.injEq] at hgather
    obtain ⟨rfl, rfl, -⟩ := hgather
    obtain ⟨-, hvalid, hnil⟩ := clear_eq hb₁
    exact .new hvalid hnil

/-- **What is parsed has no hole exactly if nothing that fits comes behind a refused chunk**, until
the buffer is cleared: for any chunks, any routes and a cycle buffer of any size. -/
theorem unbroken_iff (s : HttpServer κ) (call : κ → Request → Response → Response) {CycleBufferSize : ℕ}
    (array : {a : Bytes // a.length = CycleBufferSize}) (hpos : 1 ≤ CycleBufferSize)
    (chunks : List Bytes) :
    AllSteps (s.arrive call) Unbroken (.new (CycleBuffer.new array)) chunks ↔
      AllSteps (s.arrive call) StillFull (.new (CycleBuffer.new array)) chunks := by
  refine allSteps_congr Followed (fun x data hx => ?_)
    (fun x data y d hx hdata h => hx.arrive call hdata h)
    (.new (CycleBuffer.valid_new array hpos) (CycleBuffer.contents_new array)) chunks
  rw [hx.unbroken_step_iff, hx.refused, hx.held]
  have hfits (n : ℕ) : ¬ Fits (CycleBuffer CycleBufferSize) n = true ↔ CycleBufferSize ≤ n := by
    rw [show Fits (CycleBuffer CycleBufferSize) n = decide (n < CycleBufferSize) from rfl, decide_eq_true_iff,
      not_lt]
  rw [hfits]
  rfl

/-- A new cycle buffer of eight bytes. -/
def sampleBuffer : CycleBuffer 8 := .new ⟨List.replicate 8 0, rfl⟩

/-- A connection that holds six bytes, one short of what its buffer can hold. -/
def sampleSession (since : List Bytes) (refused : Bool) : Session (CycleBuffer 8) :=
  ⟨⟨bytes "POST /" ++ [0, 0], 6, 0⟩, bytes "POST /" :: since, refused⟩

/-- A chunk does not fit, and neither does the next one. -/
theorem unbroken_iff_sample :
    AllSteps ((HttpServer.new : HttpServer Unit).arrive fun _ _ resp => resp) Unbroken
      (.new sampleBuffer) [bytes "POST /", bytes "ab", bytes "cd"] := by
  refine (unbroken_iff HttpServer.new _ _ (by decide) _).mpr ?_
  refine .cons_of (t := sampleSession [] false) (o := none) (fun h => absurd h (not_overflows_nil _)) rfl ?_
  refine .cons_of (t := sampleSession [bytes "ab"] true) (o := none) (fun _ => .inr (by decide)) rfl ?_
  exact .cons (fun _ => .inr (by decide)) fun _ _ _ => .nil

/-- A chunk does not fit and the next one does: `"POST /c"` is parsed, and `"POST /abc"` came. -/
theorem not_unbroken_sample :
    ¬ AllSteps ((HttpServer.new : HttpServer Unit).arrive fun _ _ resp => resp) Unbroken
      (.new sampleBuffer) [bytes "POST /", bytes "ab", bytes "c"] := by
  intro h
  obtain ⟨code, packetbuf, out, hgather, hpre, -⟩ := h [bytes "POST /", bytes "ab"] (bytes "c") []
    (sampleSession [bytes "ab"] true) [none, none] rfl rfl
  have hout : (gathered (sampleSession [bytes "ab"] true).packetbuf (bytes "c")).map (fun r => r.2.2) =
      .ok (bytes "POST /c") := by decide
  rw [hgather] at hout
  cases hout
  exact absurd hpre (by decide)

end UvCpp.Http.HttpServer
