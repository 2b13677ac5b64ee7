import UvCpp.Buffer.ListBuffer
import UvCpp.Buffer.CycleBuffer

/-!
# Packet buffers are queues

What a packet buffer is for, without arrays and indices: a queue of bytes
(`queueStep`). Every lawful buffer runs as the queue does, as long as no string of
`2³¹` bytes or more is read into (`perform_eq`).

So a cycle buffer and a list buffer can be compared: leave out of a sequence of calls
the appends the cycle buffer refuses, and the list buffer gives the same answers
(`run_linked`). The exception is a defect. `CycleBuffer::readBufferN` keeps the length
of the output string in an `int`, and past `2³¹ - 1` bytes it resizes the string wrongly;
`refinesListBuffer_iff` says that this is the only exception.
-/

namespace UvCpp.Buffer

open UvCpp.Cpp UvCpp.Systems

/-! ### The queue -/

/-- A call to a queue of bytes that can hold the numbers of bytes in `Fits`. -/
def queueStep (Fits : ℕ → Bool) (s : Bytes) : Call → Bytes × Answer
  | .append data =>
    if Fits (s.length + data.length) then (s ++ data, .code 0) else (s, .code (-1))
  | .readBufferN data N =>
    (s, if s.length < N then .bytes (-1) data else .bytes 0 (data ++ s.take N))
  | .clearBufferN N => (s.drop N, .code 0)
  | .clear => ([], .code 0)
  | .readSize => (s, .size s.length)

/-- A call that does not read into a string of `2³¹` bytes or more, when a buffer holds
`n` bytes. -/
def Call.Small (n : ℕ) : Call → Prop
  | .readBufferN data N => N ≤ n → data.length < 2 ^ 31
  | _ => True

open LawfulPacketBuffer in
/-- **A lawful buffer is a queue.** -/
theorem perform_eq {β : Type} [PacketBuffer β] [LawfulPacketBuffer β] {b : β} (hb : Valid b) {call : Call}
    (hc : call.Small (contents b).length) :
    ∃ b', call.perform b = .ok (b', (queueStep (Fits β) (contents b) call).2) ∧
      Valid b' ∧ contents b' = (queueStep (Fits β) (contents b) call).1 := by
  cases call with
  | append data =>
    simp only [Call.perform, queueStep]
    split
    · next h =>
      obtain ⟨b', happ, hv, hcont⟩ := append_of_fits hb h
      exact ⟨b', by rw [happ]; rfl, hv, hcont⟩
    · next h => exact ⟨b, by rw [append_of_not_fits hb h]; rfl, hb, rfl⟩
  | readBufferN data N =>
    simp only [Call.perform, queueStep]
    split
    · next h => exact ⟨b, by rw [readBufferN_of_lt hb h]; rfl, hb, rfl⟩
    · next h =>
      have h : N ≤ (contents b).length := by omega
      exact ⟨b, by rw [readBufferN_of_le hb h (hc h)]; rfl, hb, rfl⟩
  | clearBufferN N =>
    obtain ⟨h0, hv, hcont⟩ := clearBufferN_eq (N := N) hb
    exact ⟨_, by simp only [Call.perform, h0]; rfl, hv, hcont⟩
  | clear =>
    obtain ⟨h0, hv, hcont⟩ := clear_eq hb
    exact ⟨_, by simp only [Call.perform, h0]; rfl, hv, hcont⟩
  | readSize =>
    exact ⟨b, by simp only [Call.perform, readSize_eq hb]; rfl, hb, rfl⟩

/-! ### The cycle buffer and the list buffer -/

variable {CycleBufferSize : ℕ}

/-- The calls that are not refused appends, with their answers. -/
def accepted (calls : List Call) (answers : List Answer) : List (Call × Answer) :=
  (calls.zip answers).filter fun ca => !ca.1.refused ca.2

/-- A cycle buffer and a list buffer that hold the same bytes. -/
def Linked (b : CycleBuffer CycleBufferSize) (l : ListBuffer) : Prop :=
  b.Valid ∧ l.buffer_ = b.contents

/-- A call keeps the two buffers linked: a refused append changes neither, any other call
has one answer. -/
theorem perform_linked {b : CycleBuffer CycleBufferSize} {l : ListBuffer} (h : Linked b l)
    {call : Call} (hc : call.Small b.readSize) :
    ∃ b' answer, call.perform b = .ok (b', answer) ∧
      if call.refused answer then Linked b' l
      else ∃ l', call.perform l = .ok (l', answer) ∧ Linked b' l' := by
  obtain ⟨hb, hl⟩ := h
  have hc' : call.Small b.contents.length := hb.readSize_eq ▸ hc
  obtain ⟨b', hperf, hv, hcont⟩ := perform_eq (b := b) hb hc'
  obtain ⟨l', hperf', -, hcont'⟩ := perform_eq (b := l) trivial
    (show call.Small l.buffer_.length from hl ▸ hc')
  refine ⟨b', (queueStep (fun n => n < CycleBufferSize) b.contents call).2, hperf, ?_⟩
  change b'.contents = (queueStep (fun n => n < CycleBufferSize) b.contents call).1 at hcont
  change l'.buffer_ = (queueStep (fun _ => true) l.buffer_ call).1 at hcont'
  change call.perform l = .ok (l', (queueStep (fun _ => true) l.buffer_ call).2) at hperf'
  rw [hl] at hperf' hcont'
  cases call with
  | append data =>
    simp only [queueStep, decide_eq_true_eq, if_true] at hcont hcont' hperf' ⊢
    by_cases hfit : b.contents.length + data.length < CycleBufferSize
    · simp only [if_pos hfit] at hcont ⊢
      exact ⟨l', hperf', hv, hcont'.trans hcont.symm⟩
    · simp only [if_neg hfit] at hcont ⊢
      exact ⟨hv, hl.trans hcont.symm⟩
  | readBufferN data N => exact ⟨l', hperf', hv, hcont'.trans hcont.symm⟩
  | clearBufferN N => exact ⟨l', hperf', hv, hcont'.trans hcont.symm⟩
  | clear => exact ⟨l', hperf', hv, hcont'.trans hcont.symm⟩
  | readSize => exact ⟨l', hperf', hv, hcont'.trans hcont.symm⟩

theorem accepted_concat {calls : List Call} {answers : List Answer} {call : Call} {answer : Answer}
    (h : answers.length = calls.length) : accepted (calls ++ [call]) (answers ++ [answer]) =
      accepted calls answers ++ if call.refused answer then [] else [(call, answer)] := by
  unfold accepted
  rw [List.zip_append h.symm, List.filter_append]
  cases h' : call.refused answer <;> simp [h']

/-- The calls on a new cycle buffer and, without the refused appends, on a new list buffer:
what the two end as, and that each call that is not refused has one answer. -/
def Side (array : {a : Bytes // a.length = CycleBufferSize}) (calls : List Call)
    (b : CycleBuffer CycleBufferSize) (l : ListBuffer) : Prop :=
  ∃ answers, runAll Call.perform (CycleBuffer.new array) calls = .ok (b, answers) ∧
    runAll Call.perform ListBuffer.new ((accepted calls answers).map (·.1)) =
      .ok (l, (accepted calls answers).map (·.2))

/-- **What the cycle buffer is meant for**: after the calls its indices lie in the array,
its answers have been those of a list buffer, and an append is refused, changing nothing,
exactly when it would put more than `CycleBufferSize - 1` bytes in the buffer. -/
def RefinesListBuffer (array : {a : Bytes // a.length = CycleBufferSize}) (calls : List Call) : Prop :=
  ∃ b l, Side array calls b l ∧ b.readIndex_ < CycleBufferSize ∧ b.writeIndex_ < CycleBufferSize ∧
    ∀ data : Bytes,
      (CycleBufferSize - 1 < l.buffer_.length + data.length → b.append data = .ok (-1, b)) ∧
      (l.buffer_.length + data.length ≤ CycleBufferSize - 1 → ∃ b', b.append data = .ok (0, b'))

/-- No call reads bytes that are there into a string of `2³¹` bytes or more. -/
def ShortStrings (array : {a : Bytes // a.length = CycleBufferSize}) (calls : List Call) : Prop :=
  AllSteps Call.perform (fun b call => call.Small b.readSize) (CycleBuffer.new array) calls

variable {array : {a : Bytes // a.length = CycleBufferSize}}

theorem ShortStrings.of_concat {calls : List Call} {call : Call}
    (h : ShortStrings array (calls ++ [call])) : ShortStrings array calls := by
  intro before c after b answers hc
  exact h before c (after ++ [call]) b answers (by rw [hc, List.append_assoc, List.cons_append])

/-- The runs of the two buffers side by side, one call further. -/
theorem Side.concat {calls : List Call} {b b' : CycleBuffer CycleBufferSize} {l : ListBuffer}
    (h : Side array calls b l) {call : Call} {answer : Answer}
    (hb : call.perform b = .ok (b', answer)) {l' : ListBuffer}
    (hl : if call.refused answer then l' = l else call.perform l = .ok (l', answer)) :
    Side array (calls ++ [call]) b' l' := by
  obtain ⟨answers, hrun, hrun'⟩ := h
  refine ⟨answers ++ [answer], ?_, ?_⟩
  · exact runAll_append_eq_ok_iff.mpr ⟨b, answers, [answer], hrun, runAll_cons_of hb rfl, rfl⟩
  · rw [accepted_concat (length_of_runAll hrun)]
    split at hl
    · next href =>
      rw [if_pos href, List.append_nil, hl]
      exact hrun'
    · next href =>
      rw [if_neg href, List.map_append, List.map_append]
      exact runAll_append_eq_ok_iff.mpr ⟨l, _, [answer], hrun', runAll_cons_of hl rfl, rfl⟩

/-- What the last call of two runs side by side did. -/
theorem Side.of_concat {calls : List Call} {call : Call} {b' : CycleBuffer CycleBufferSize}
    {l' : ListBuffer} (h : Side array (calls ++ [call]) b' l') :
    ∃ b l answer, Side array calls b l ∧ call.perform b = .ok (b', answer) ∧
      if call.refused answer then l' = l else call.perform l = .ok (l', answer) := by
  obtain ⟨answers, hrun, hrun'⟩ := h
  obtain ⟨b, as, last, h1, h2, rfl⟩ := runAll_append_eq_ok_iff.mp hrun
  obtain ⟨b'', answer, os, hperf, hnil, rfl⟩ := runAll_cons_eq_ok_iff.mp h2
  cases hnil
  rw [accepted_concat (length_of_runAll h1)] at hrun'
  split at hrun'
  · next href =>
    rw [List.append_nil] at hrun'
    exact ⟨b, l', answer, ⟨as, h1, hrun'⟩, hperf, by rw [if_pos href]⟩
  · next href =>
    rw [List.map_append, List.map_append] at hrun'
    obtain ⟨l, os₁, os₂, h3, h4, heq⟩ := runAll_append_eq_ok_iff.mp hrun'
    obtain ⟨l'', answer', os, hperf', hnil, rfl⟩ := runAll_cons_eq_ok_iff.mp h4
    cases hnil
    obtain ⟨rfl, h⟩ := List.append_inj heq.symm (by simp [length_of_runAll h3])
    simp only [List.map_cons, List.map_nil, List.cons.injEq, and_true] at h
    exact ⟨b, l, answer, ⟨as, h1, h3⟩, hperf, by rw [if_neg href, ← h]; exact hperf'⟩

/-- **The runs stay linked**, as long as no call reads into too long a string. -/
theorem run_linked (h : 1 ≤ CycleBufferSize) {calls : List Call} (hs : ShortStrings array calls) :
    ∃ b l, Side array calls b l ∧ Linked b l := by
  induction calls using List.reverseRecOn with
  | nil =>
    exact ⟨CycleBuffer.new array, ListBuffer.new, ⟨[], rfl, rfl⟩, CycleBuffer.valid_new array h,
      (CycleBuffer.contents_new array).symm⟩
  | append_singleton calls call ih =>
    obtain ⟨b, l, hside, hlink⟩ := ih hs.of_concat
    obtain ⟨answers, hrun, -⟩ := id hside
    obtain ⟨b', answer, hperf, hl⟩ := perform_linked hlink (hs calls call [] b answers rfl hrun)
    split at hl
    · next href => exact ⟨b', l, hside.concat hperf (by rw [if_pos href]), hl⟩
    · next href =>
      obtain ⟨l', hperf', hl⟩ := hl
      exact ⟨b', l', hside.concat hperf (by rw [if_neg href]; exact hperf'), hl⟩

/-- The calls determine what the two buffers end as. -/
theorem Side.unique {calls : List Call} {b b' : CycleBuffer CycleBufferSize} {l l' : ListBuffer}
    (h : Side array calls b l) (h' : Side array calls b' l') : b = b' ∧ l = l' := by
  obtain ⟨answers, h1, h2⟩ := h
  obtain ⟨answers', h1', h2'⟩ := h'
  rw [h1, Except.ok.injEq, Prod.mk.injEq] at h1'
  obtain ⟨rfl, rfl⟩ := h1'
  rw [h2, Except.ok.injEq, Prod.mk.injEq] at h2'
  exact ⟨rfl, h2'.1⟩

/-- Linked buffers give one answer only to a call on a short string. -/
theorem Linked.small {b b' : CycleBuffer CycleBufferSize} {l l' : ListBuffer} (h : Linked b l)
    {call : Call} {answer : Answer} (hb : call.perform b = .ok (b', answer))
    (hl : call.perform l = .ok (l', answer)) : call.Small b.readSize := by
  obtain ⟨hv, hcont⟩ := h
  cases call with
  | readBufferN data N =>
    intro hN
    by_contra hlong
    have hle : N ≤ b.contents.length := hv.readSize_eq ▸ hN
    have hl' : Call.perform l (.readBufferN data N) =
        .ok (l, .bytes 0 (data ++ b.contents.take N)) := by
      simp only [Call.perform]
      rw [show PacketBuffer.readBufferN l data N = .ok (0, data ++ l.buffer_.take N) from
        if_neg (by rw [hcont]; omega), hcont]
      rfl
    rw [hl', Except.ok.injEq, Prod.mk.injEq] at hl
    obtain ⟨-, rfl⟩ := hl
    simp only [Call.perform, Exec.bind_eq_ok_iff, Except.ok.injEq, Prod.mk.injEq, Answer.bytes.injEq,
      Prod.exists] at hb
    obtain ⟨c, d, hread, -, rfl, rfl⟩ := hb
    exact CycleBuffer.readBufferN_of_long hN (by omega) _
      (by rw [List.length_take]; omega) hread
  | append | clearBufferN | clear | readSize => trivial

/-- Answers that are those of a list buffer come from calls on short strings only. -/
theorem Side.shortStrings (h : 1 ≤ CycleBufferSize) {calls : List Call}
    {b : CycleBuffer CycleBufferSize} {l : ListBuffer} (hside : Side array calls b l) :
    ShortStrings array calls := by
  induction calls using List.reverseRecOn generalizing b l with
  | nil => intro before call after b answers hc; simp at hc
  | append_singleton calls call ih =>
    obtain ⟨b₁, l₁, answer, hside₁, hperf, hl⟩ := hside.of_concat
    have hs := ih hside₁
    intro before c after b₂ answers hc hrun
    rcases List.eq_nil_or_concat after with rfl | ⟨after, last, rfl⟩
    · obtain ⟨rfl, hc⟩ := List.append_inj' hc rfl
      obtain rfl : call = c := by simpa using hc
      obtain ⟨b₃, l₃, hside₃, hlink⟩ := run_linked h hs
      obtain ⟨rfl, rfl⟩ := hside₁.unique hside₃
      obtain ⟨answers', hrun', -⟩ := hside₁
      rw [hrun', Except.ok.injEq, Prod.mk.injEq] at hrun
      obtain ⟨rfl, rfl⟩ := hrun
      by_cases href : call.refused answer
      · cases call with
        | append => trivial
        | readBufferN | clearBufferN | clear | readSize => simp [Call.refused] at href
      · rw [if_neg href] at hl
        exact hlink.small hperf hl
    · rw [List.concat_eq_append, ← List.cons_append, ← List.append_assoc] at hc
      obtain ⟨rfl, -⟩ := List.append_inj' hc rfl
      exact hs before c after b₂ answers rfl hrun

/-- **`CycleBuffer` refines `ListBuffer`, but for one thing.** After any calls on a new
cycle buffer it has answered as a list buffer would, refusing exactly the appends that do
not fit, if and only if no call read bytes into a string of `2³¹` bytes or more. -/
theorem refinesListBuffer_iff (C : ℕ) (hC : 1 ≤ C) (array : {a : Bytes // a.length = C})
    (calls : List Call) : RefinesListBuffer array calls ↔ ShortStrings array calls := by
  constructor
  · rintro ⟨b, l, hside, -⟩
    exact hside.shortStrings hC
  · intro hs
    obtain ⟨b, l, hside, hv, hcont⟩ := run_linked hC hs
    refine ⟨b, l, hside, hv.read, hv.write, fun data => ⟨fun hfull => ?_, fun hfit => ?_⟩⟩
    · exact hv.append_of_not_fits (by rw [← hcont]; omega)
    · obtain ⟨b', happ, -⟩ := hv.append_of_fits (show b.contents.length + data.length < C by rw [← hcont]; omega)
      exact ⟨b', happ⟩

/-- Calls that read onto short strings only. -/
theorem ShortStrings.of_forall {calls : List Call} (h : ∀ call ∈ calls, ∀ n, call.Small n) :
    ShortStrings array calls := by
  rintro before call after b answers rfl -
  exact h call (List.mem_append_right before List.mem_cons_self) b.readSize

/-- Calls of every kind: an append that is refused, one that goes round the end of the array, and a read of
what it has put there. -/
def sampleCalls : List Call :=
  [.append [1, 2], .append [3, 4], .append [3], .readBufferN [9] 2, .clearBufferN 2, .append [4, 5], .readSize,
    .readBufferN [] 3, .readBufferN [] 4, .clear, .append [6, 7, 8], .readBufferN [] 3]

theorem refinesListBuffer_iff_sample :
    RefinesListBuffer (⟨[0, 0, 0, 0], rfl⟩ : {a : Bytes // a.length = 4}) sampleCalls ∧
      runAll Call.perform (CycleBuffer.new (⟨[0, 0, 0, 0], rfl⟩ : {a : Bytes // a.length = 4})) sampleCalls =
        .ok (⟨[6, 7, 8, 4], 3, 0⟩, [.code 0, .code (-1), .code 0, .bytes 0 [9, 1, 2], .code 0, .code 0, .size 3,
          .bytes 0 [3, 4, 5], .bytes (-1) [], .code 0, .code 0, .bytes 0 [6, 7, 8]]) := by
  refine ⟨(refinesListBuffer_iff 4 (by decide) ⟨[0, 0, 0, 0], rfl⟩ sampleCalls).mpr ?_, by decide +kernel⟩
  refine .of_forall fun call hcall n => ?_
  simp only [sampleCalls, List.mem_cons, List.not_mem_nil, or_false] at hcall
  rcases hcall with rfl | rfl | rfl | rfl | rfl | rfl | rfl | rfl | rfl | rfl | rfl | rfl <;> simp [Call.Small]

/-- Reading nothing into a string that is too long. -/
theorem Side.length_lt (hC : 1 ≤ CycleBufferSize) {data : Bytes} {b : CycleBuffer CycleBufferSize}
    {l : ListBuffer} (h : Side array [.readBufferN data 0] b l) : data.length < 2 ^ 31 :=
  h.shortStrings hC [] _ [] (CycleBuffer.new array) [] rfl rfl (Nat.zero_le _)

/-- Reading nothing into a string of `2³¹` bytes: the list buffer returns `0`, the cycle
buffer does not return. -/
theorem not_refinesListBuffer_long :
    ¬ RefinesListBuffer (⟨[0], rfl⟩ : {a : Bytes // a.length = 1})
      [.readBufferN (List.replicate (2 ^ 31) 0) 0] := by
  rintro ⟨b, l, hside, -⟩
  have hlt := hside.length_lt (by decide)
  rw [List.length_replicate] at hlt
  exact absurd hlt (lt_irrefl _)

end UvCpp.Buffer
