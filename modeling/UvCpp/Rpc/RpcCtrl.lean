import UvCpp.Rpc.Protocol
import UvCpp.Systems.Duplex

/-!
# Remote calls

The example `rpc`: `RpcCtrl::sum` runs on a thread of the program, sends a request through the
thread of the loop and waits for a response; the server unpacks what it receives and sends back the
sum. Nothing in the protocol says where a message ends, and nothing in a response says to which
request it belongs.

The server answers everything it receives, so the parts of a request that is cut between two
numbers get answers of their own; they add up (`answers_addUp`), but a call returns with the first.
When messages arrive whole, every call returns with the sum of its own numbers, in every run
(`calls_return`). A request without numbers is never answered, and its call never returns.
-/

namespace UvCpp.Rpc

open UvCpp.Cpp UvCpp.Packet UvCpp.Systems

/-- `new char[size]`: what lies in the array is written over before it is read. -/
def newArray (size : ℤ) : Exec Bytes :=
  if size < 0 then .error .thrown else .ok (List.replicate size.toNat 0)

/-! ### The server -/

namespace RpcServer

/-- `sendProtocol`: what is written. -/
def sendProtocol (order : DataMode) (resp : Resp) : Exec Bytes := do
  let data ← newArray Resp.size
  let (_, data) ← resp.pack order data
  .ok data

/-- `onMessage`: what is written. -/
def onMessage (order : DataMode) (buf : Bytes) : Exec Bytes := do
  let (rst, req) ← (⟨[]⟩ : Req).unpack order buf
  if rst = 0 then do
    let resp ← sum req
    sendProtocol order resp
  else .ok []

end RpcServer

variable {order : DataMode}

theorem RpcServer.sendProtocol_eq (resp : Resp) : sendProtocol order resp = .ok (int64Bytes order resp.param) := by
  have hpack := Resp.pack_eq order resp (t := []) (List.length_replicate (n := 8) (a := 0))
  rw [List.append_nil, List.append_nil] at hpack
  exact congrArg (fun x : Exec (ℤ × Bytes) => x >>= fun r => (.ok r.2 : Exec Bytes)) hpack

/-- **What the server answers**: the sum of the numbers it has received, if it has received numbers. -/
theorem RpcServer.onMessage_eq (order : DataMode) {buf : Bytes} (h : buf.length < 2 ^ 31) : onMessage order buf =
    .ok (if 4 ∣ buf.length then int64Bytes order (.ofInt (total (numbers order buf))) else []) := by
  rw [onMessage, Req.unpack_eq _ h]
  by_cases hdvd : 4 ∣ buf.length
  · have hlen := length_numbers order hdvd
    have hshort : (numbers order buf).length < 2 ^ 31 := by omega
    rw [if_pos hdvd, if_pos hdvd, Exec.ok_bind]
    dsimp only
    rw [if_pos rfl, sum_eq ⟨numbers order buf⟩ hshort, Exec.ok_bind, sendProtocol_eq]
  · rw [if_neg hdvd, if_neg hdvd]
    rfl

/-- **Answers add up.** However numbers are cut up between two of them, the server answers each part, and
what it answers makes the sum of them all. -/
theorem answers_addUp (order : DataMode) (chunks : List Bytes)
    (hchunks : ∀ chunk ∈ chunks, 4 ∣ chunk.length ∧ chunk.length < 2 ^ 31) :
    ∃ answers : List Int64, chunks.mapM (RpcServer.onMessage order) = .ok (answers.map (int64Bytes order)) ∧
      (answers.map Int64.toInt).sum = total (numbers order chunks.flatten) := by
  induction chunks with
  | nil => exact ⟨[], rfl, rfl⟩
  | cons chunk chunks ih =>
    obtain ⟨hdvd, hlt⟩ := hchunks chunk List.mem_cons_self
    obtain ⟨answers, hrun, hsum⟩ := ih fun c hc => hchunks c (List.mem_cons_of_mem _ hc)
    have hlen := length_numbers order hdvd
    refine ⟨.ofInt (total (numbers order chunk)) :: answers, ?_, ?_⟩
    · rw [List.mapM_cons, RpcServer.onMessage_eq order hlt, if_pos hdvd, hrun]
      rfl
    · rw [List.map_cons, List.sum_cons, hsum, toInt_total (by omega), List.flatten_cons,
        numbers_append_of_dvd hdvd, total_append]

/-- A request of two numbers, cut up between them. -/
def twoChunks : List Bytes := [[1, 0, 0, 0], [2, 0, 0, 0]]

theorem answers_addUp_sample : ∃ answers : List Int64,
    twoChunks.mapM (RpcServer.onMessage .LittleEndian) = .ok (answers.map (int64Bytes .LittleEndian)) ∧
      (answers.map Int64.toInt).sum = 3 := by
  have hchunks : ∀ chunk ∈ twoChunks, 4 ∣ chunk.length ∧ chunk.length < 2 ^ 31 := by decide
  exact answers_addUp .LittleEndian twoChunks hchunks

/-! ### The client -/

/-- `RpcClient::sendProtocol`: what the function writes that is posted to the loop. -/
def RpcClient.sendProtocol (order : DataMode) (req : Req) : Exec Bytes := do
  let size ← req.size
  let data ← newArray size
  let (_, data) ← req.pack order data
  .ok data

/-- `RpcCtrl`, with the client and the thread that calls. -/
structure RpcCtrl where
  /-- The last response. -/
  resp_ : Resp
  /-- Whether it has come since the last call. -/
  ready_ : Bool
  /-- The request of the call that is waiting. -/
  waiting : Option Req
  /-- What the functions write that the loop has not run. -/
  posted : List Bytes
  /-- The calls that have returned. -/
  returned : List (Req × Resp)

namespace RpcCtrl

/-- A new one, with a client that is connected. -/
def new : RpcCtrl := ⟨⟨0⟩, false, none, [], []⟩

/-- `sum`, up to the wait. -/
def sum (order : DataMode) (x : RpcCtrl) (req : Req) : Exec RpcCtrl := do
  let data ← RpcClient.sendProtocol order req
  .ok { x with ready_ := false, waiting := some req, posted := x.posted ++ [data] }

/-- `onResp`. -/
def onResp (x : RpcCtrl) (resp : Resp) : RpcCtrl := { x with resp_ := resp, ready_ := true }

/-- `RpcClient::onMessage`. -/
def onMessage (order : DataMode) (x : RpcCtrl) (data : Bytes) : Exec (RpcCtrl × Bytes) := do
  let (rst, resp) ← (⟨0⟩ : Resp).unpack order data
  if rst = 0 then .ok (x.onResp resp, []) else .ok (x, [])

/-- What happens on the side of the client. -/
inductive Act where
  /-- `sum` is called, and waits. -/
  | call (req : Req)
  /-- The loop runs a function that was posted. -/
  | write
  /-- The wait ends, and `sum` returns. -/
  | wake

/-- The step. -/
def act (order : DataMode) (x : RpcCtrl) : Act → Exec (RpcCtrl × Bytes)
  | .call req => do
    let x ← x.sum order req
    .ok (x, [])
  | .write =>
    match x.posted with
    | [] => .ok (x, [])
    | data :: posted => .ok ({ x with posted }, data)
  | .wake =>
    match x.waiting with
    | none => .ok (x, [])
    | some req => .ok ({ x with waiting := none, returned := x.returned ++ [(req, x.resp_)] }, [])

/-- The client on the left, and the server on the right. -/
def parties (order : DataMode) : Parties RpcCtrl Unit Act UInt8 where
  receiveLeft := onMessage order
  receiveRight _ buf := do
    let out ← RpcServer.onMessage order buf
    .ok ((), out)
  act := act order

/-- One thread calls, and messages arrive whole. -/
def Allows (x : Duplex RpcCtrl Unit UInt8) (e : Duplex.Event Act) : Prop :=
  x.Arrives e ∧ match e with
    | .toRight n => n = x.toRight.length
    | .toLeft n => n = x.toLeft.length
    | .act (.call req) => x.left.waiting = none ∧ req.params.length < 2 ^ 29
    | .act .write => x.left.posted ≠ []
    | .act .wake => x.left.waiting ≠ none ∧ x.left.ready_ = true

/-- The beginning. -/
def start : Duplex RpcCtrl Unit UInt8 := ⟨new, (), [], []⟩

/-- How far a call has come. -/
inductive Stage (order : DataMode) : Duplex RpcCtrl Unit UInt8 → Prop where
  /-- There is none. -/
  | idle {resp : Resp} {ready : Bool} {returned : List (Req × Resp)} :
      Stage order ⟨⟨resp, ready, none, [], returned⟩, (), [], []⟩
  /-- The request waits for the loop. -/
  | posted {resp : Resp} {req : Req} {returned : List (Req × Resp)} : req.params.length < 2 ^ 29 →
      Stage order ⟨⟨resp, false, some req, [text order req.params], returned⟩, (), [], []⟩
  /-- It is on its way. -/
  | sent {resp : Resp} {req : Req} {returned : List (Req × Resp)} : req.params.length < 2 ^ 29 →
      Stage order ⟨⟨resp, false, some req, [], returned⟩, (), text order req.params, []⟩
  /-- The response is on its way. -/
  | answered {resp : Resp} {req : Req} {returned : List (Req × Resp)} : req.params.length < 2 ^ 29 →
      req.params ≠ [] →
      Stage order ⟨⟨resp, false, some req, [], returned⟩, (), [], int64Bytes order (.ofInt (total req.params))⟩
  /-- It has come. -/
  | ready {req : Req} {returned : List (Req × Resp)} : req.params.length < 2 ^ 29 → req.params ≠ [] →
      Stage order ⟨⟨⟨.ofInt (total req.params)⟩, true, some req, [], returned⟩, (), [], []⟩

/-- A call has returned with the sum of its own numbers. -/
def Right (r : Req × Resp) : Prop := r.2.param.toInt = total r.1.params

theorem sendProtocol_eq {req : Req} (h : req.params.length < 2 ^ 29) :
    RpcClient.sendProtocol order req = .ok (text order req.params) := by
  have hpack := Req.pack_eq order h (t := [])
    (List.length_replicate (n := 4 * req.params.length) (a := 0))
  rw [List.append_nil, List.append_nil] at hpack
  have harray : newArray ((4 * req.params.length : ℕ) : ℤ) = .ok (List.replicate (4 * req.params.length) 0) := by
    rw [newArray, if_neg (by omega), Int.toNat_natCast]
  rw [RpcClient.sendProtocol, Req.size_eq h, Exec.ok_bind, harray, Exec.ok_bind, hpack]
  rfl

/-- The calls that have been made, by those that have returned and the one that waits. -/
def made (x : RpcCtrl) : List Req := x.returned.map Prod.fst ++ x.waiting.toList

/-- The call that an event is. -/
def called : Duplex.Event Act → Option Req
  | .act (.call req) => some req
  | _ => none

/-- The request arrives, and is answered. -/
theorem receiveRight_text (order : DataMode) {params : List Int32} (h : params.length < 2 ^ 29) :
    (parties order).receiveRight () (text order params) = .ok ((), int64Bytes order (.ofInt (total params))) := by
  have hlen := length_text order params
  have hanswer := @RpcServer.onMessage_eq order (text order params) (by omega)
  rw [if_pos ⟨_, hlen⟩, numbers_text] at hanswer
  simp only [parties, hanswer, Exec.ok_bind]

/-- The response arrives. -/
theorem receiveLeft_int64Bytes (order : DataMode) (x : RpcCtrl) (n : Int64) :
    (parties order).receiveLeft x (int64Bytes order n) = .ok (x.onResp ⟨n⟩, []) := by
  have hlen := length_int64Bytes order n
  have hread := @Resp.unpack_eq order ⟨0⟩ (int64Bytes order n) (by omega)
  rw [if_neg (by omega), List.take_of_length_le (by omega), int64At_int64Bytes] at hread
  simp only [parties, onMessage, hread]
  rfl

/-- **The step lemma.** -/
theorem Stage.step {x : Duplex RpcCtrl Unit UInt8} (hx : Stage order x) (hright : ∀ r ∈ x.left.returned, Right r)
    {e : Duplex.Event Act} (he : Allows x e) : ∃ y, x.step (parties order) e = .ok y ∧ Stage order y ∧
      (∀ r ∈ y.left.returned, Right r) ∧ y.left.made = x.left.made ++ (called e).toList := by
  obtain ⟨harrives, he⟩ := he
  cases hx with
  | @idle resp ready returned =>
    cases e with
    | toRight n => exact absurd rfl harrives.toRight_ne_nil
    | toLeft n => exact absurd rfl harrives.toLeft_ne_nil
    | act a =>
      cases a with
      | call req =>
        have hact : (parties order).act ⟨resp, ready, none, [], returned⟩ (.call req) =
            .ok (⟨resp, false, some req, [text order req.params], returned⟩, []) := by
          simp only [parties, act, RpcCtrl.sum, sendProtocol_eq he.2]
          rfl
        exact ⟨_, Duplex.step_act hact, .posted he.2, hright, by simp [made, called]⟩
      | write => exact absurd rfl he
      | wake => exact absurd rfl he.1
  | @posted resp req returned hshort =>
    cases e with
    | toRight n => exact absurd rfl harrives.toRight_ne_nil
    | toLeft n => exact absurd rfl harrives.toLeft_ne_nil
    | act a =>
      cases a with
      | call req => exact absurd he.1 (Option.some_ne_none _)
      | write => exact ⟨_, Duplex.step_act rfl, .sent hshort, hright, by simp [made, called]⟩
      | wake => cases he.2
  | @sent resp req returned hshort =>
    cases e with
    | toRight n =>
      cases he
      have hreceive := receiveRight_text order hshort
      rw [← List.take_length (l := text order req.params)] at hreceive
      refine ⟨_, Duplex.step_toRight hreceive, ?_, hright, by simp [made, called]⟩
      rw [List.drop_length]
      refine .answered hshort fun hnil => harrives.toRight_ne_nil ?_
      rw [hnil]
      rfl
    | toLeft n => exact absurd rfl harrives.toLeft_ne_nil
    | act a =>
      cases a with
      | call req => exact absurd he.1 (Option.some_ne_none _)
      | write => exact absurd rfl he
      | wake => cases he.2
  | @answered resp req returned hshort hne =>
    cases e with
    | toRight n => exact absurd rfl harrives.toRight_ne_nil
    | toLeft n =>
      cases he
      have hreceive := receiveLeft_int64Bytes order ⟨resp, false, some req, [], returned⟩
        (.ofInt (total req.params))
      rw [← List.take_length (l := int64Bytes order (.ofInt (total req.params)))] at hreceive
      refine ⟨_, Duplex.step_toLeft hreceive, ?_, hright, by simp [made, called, onResp]⟩
      rw [List.drop_length]
      exact .ready hshort hne
    | act a =>
      cases a with
      | call req => exact absurd he.1 (Option.some_ne_none _)
      | write => exact absurd rfl he
      | wake => cases he.2
  | @ready req returned hshort hne =>
    cases e with
    | toRight n => exact absurd rfl harrives.toRight_ne_nil
    | toLeft n => exact absurd rfl harrives.toLeft_ne_nil
    | act a =>
      cases a with
      | call req => exact absurd he.1 (Option.some_ne_none _)
      | write => exact absurd rfl he
      | wake =>
        refine ⟨_, Duplex.step_act rfl, .idle, fun r hr => ?_, by simp [made, called]⟩
        rcases List.mem_append.mp hr with hr | hr
        · exact hright r hr
        · rw [List.mem_singleton.mp hr]
          exact toInt_total (by omega)

/-- What holds of the calls. -/
structure Answered (order : DataMode) (events : List (Duplex.Event Act)) (x : Duplex RpcCtrl Unit UInt8) :
    Prop where
  /-- What can happen next does not fault. -/
  safe : ∀ e, Allows x e → Exec.Returns (x.step (parties order) e)
  /-- Every call returns once, in order, and all have returned but the one that waits. -/
  inOrder : events.filterMap called = x.left.returned.map Prod.fst ++ x.left.waiting.toList
  /-- It returns with the sum of its own numbers. -/
  right : ∀ r ∈ x.left.returned, r.2.param.toInt = total r.1.params
  /-- While a call with numbers waits, something can happen. -/
  moves : ∀ req, x.left.waiting = some req → req.params ≠ [] → ∃ e, Allows x e
  /-- A call without numbers is not answered. -/
  stuck : ∀ req, x.left.waiting = some req → req.params = [] → x.left.posted = [] →
    ∀ e, ¬ Allows x e

/-- While a call with numbers waits, something can happen. -/
theorem Stage.moves {x : Duplex RpcCtrl Unit UInt8} (hx : Stage order x) {req : Req}
    (hwaiting : x.left.waiting = some req) (hne : req.params ≠ []) : ∃ e, Allows x e := by
  cases hx with
  | idle => cases hwaiting
  | posted => exact ⟨.act .write, trivial, List.cons_ne_nil _ _⟩
  | @sent resp req' returned hshort =>
    cases hwaiting
    refine ⟨.toRight (text order req.params).length, ⟨?_, le_rfl⟩, rfl⟩
    rw [length_text]
    exact Nat.mul_pos (by decide) (List.length_pos_of_ne_nil hne)
  | answered => exact ⟨.toLeft 8, ⟨by decide, (length_int64Bytes _ _).ge⟩, (length_int64Bytes _ _).symm⟩
  | ready => exact ⟨.act .wake, trivial, Option.some_ne_none _, rfl⟩

/-- Nothing arrives of a request without numbers. -/
theorem Stage.stuck {x : Duplex RpcCtrl Unit UInt8} (hx : Stage order x) {req : Req}
    (hwaiting : x.left.waiting = some req) (hnil : req.params = []) (hposted : x.left.posted = [])
    (e : Duplex.Event Act) : ¬ Allows x e := by
  rintro ⟨harrives, he⟩
  cases hx with
  | idle => cases hwaiting
  | posted => exact absurd hposted (List.cons_ne_nil _ _)
  | @sent resp req' returned hshort =>
    cases hwaiting
    cases e with
    | toRight n =>
      refine harrives.toRight_ne_nil ?_
      rw [hnil]
      rfl
    | toLeft n => exact harrives.toLeft_ne_nil rfl
    | act a =>
      cases a with
      | call req' => exact Option.some_ne_none _ he.1
      | write => exact he rfl
      | wake => cases he.2
  | answered _ hne =>
    cases hwaiting
    exact hne hnil
  | ready _ hne =>
    cases hwaiting
    exact hne hnil

/-- **Every call returns with the sum of its own numbers**, if messages arrive whole, in every run. -/
theorem calls_return (order : DataMode) {events : List (Duplex.Event Act)} {x : Duplex RpcCtrl Unit UInt8}
    (hrun : Run (Steps (Duplex.step (parties order)) Allows) start events x) : Answered order events x := by
  obtain ⟨⟨hx, hright, hmade⟩, hsafe⟩ := hrun.safe_events (fun events x => Stage order x ∧
      (∀ r ∈ x.left.returned, Right r) ∧ events.filterMap called = x.left.made)
    ⟨.idle, by simp [start, new], rfl⟩ fun events x e ⟨hx, hright, hmade⟩ he => by
    obtain ⟨y, hstep, hy, hright', hmade'⟩ := hx.step hright he
    refine ⟨y, hstep, hy, hright', ?_⟩
    rw [List.filterMap_append, hmade, hmade']
    cases h : called e <;> simp [h]
  exact ⟨hsafe, hmade, hright, fun _ => hx.moves, fun _ => hx.stuck⟩

/-- What a program does in which one call is made, of two numbers. -/
def sampleEvents : List (Duplex.Event Act) :=
  [.act (.call ⟨[1, -2]⟩), .act .write, .toRight 8, .toLeft 8, .act .wake]

/-- The call has returned. -/
def sampleEnd : Duplex RpcCtrl Unit UInt8 := ⟨⟨⟨-1⟩, true, none, [], [(⟨[1, -2]⟩, ⟨-1⟩)]⟩, (), [], []⟩

theorem calls_return_sample : Run (Steps (Duplex.step (parties .LittleEndian)) Allows) start sampleEvents sampleEnd ∧
    Answered .LittleEndian sampleEvents sampleEnd := by
  have hrun : Run (Steps (Duplex.step (parties .LittleEndian)) Allows) start sampleEvents sampleEnd :=
    .snoc (.snoc (.snoc (.snoc (.snoc (.nil _) ⟨⟨trivial, rfl, by decide⟩, rfl⟩)
      ⟨⟨trivial, by decide⟩, rfl⟩) ⟨⟨by decide, rfl⟩, rfl⟩) ⟨⟨by decide, rfl⟩, rfl⟩)
      ⟨⟨trivial, by decide, rfl⟩, rfl⟩
  exact ⟨hrun, calls_return .LittleEndian hrun⟩

end RpcCtrl

end UvCpp.Rpc
