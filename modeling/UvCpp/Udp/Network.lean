import UvCpp.Udp.Udp
import Mathlib.Logic.Function.Basic

/-!
# Datagrams between sockets

Sockets with addresses send datagrams to one another. The network may lose a datagram, deliver it more than once,
and deliver it after others that were sent later; all it does not do is make one up.

In the example `all_example` a program sends a message to an echo. Whatever comes back to it from there is something
that it has sent there, word for word (`answers_echo`).
-/

namespace UvCpp

open UvCpp.Cpp UvCpp.Systems

instance (ipv : IPV) : DecidableEq (sockaddr ipv) :=
  match ipv with
  | .Ipv4 => inferInstanceAs (DecidableEq sockaddr_in)
  | .Ipv6 => inferInstanceAs (DecidableEq sockaddr_in6)

/-- Sockets, each at its address. -/
abbrev Network (ipv : IPV) (κ : Type) := sockaddr ipv → Udp ipv κ

namespace Network

variable {ipv : IPV} {κ : Type}

/-- New sockets, with callbacks for messages. -/
def new (onMessageCallback_ : sockaddr ipv → Option Bool) : Network ipv κ :=
  fun addr => .new (onMessageCallback_ addr)

variable (inet_ntop : BitVec 128 → Bytes)

/-- A step: something happens to a socket. -/
def step (net : Network ipv κ) (e : sockaddr ipv × Udp.Event ipv κ) : Exec (Network ipv κ) := do
  let s ← (net e.1).step inet_ntop e.2
  .ok (Function.update net e.1 s)

/-- What can happen: what is brought to a socket has been sent to it, at some time. -/
def Allows (net : Network ipv κ) (e : sockaddr ipv × Udp.Event ipv κ) : Prop :=
  (net e.1).Allows e.2 ∧ ∀ src data, (src, data) ∈ e.2.brings → (e.1, data) ∈ (net src).sent

/-- What holds in every run. -/
structure Inv (net : Network ipv κ) : Prop where
  /-- Each socket is in order. -/
  socket : ∀ addr, (net addr).Inv none
  /-- What has arrived has been sent. -/
  arrived : ∀ addr src data, (src, data) ∈ (net addr).arrived → (addr, data) ∈ (net src).sent

variable {inet_ntop} {net net' : Network ipv κ}

theorem Inv.new (onMessageCallback_ : sockaddr ipv → Option Bool) : Inv (new onMessageCallback_ : Network ipv κ) :=
  ⟨fun _ => .new _, fun _ _ _ h => by cases h⟩

/-- **The step lemma.** -/
theorem Inv.step (h : Inv net) {e : sockaddr ipv × Udp.Event ipv κ} (hallows : net.Allows e)
    (hstep : net.step inet_ntop e = .ok net') : Inv net' := by
  obtain ⟨addr, e⟩ := e
  obtain ⟨s, hs, heq⟩ := Exec.bind_eq_ok_iff.mp hstep
  obtain rfl : Function.update net addr s = net' := Except.ok.inj heq
  obtain ⟨hinv, hfollows⟩ := (h.socket addr).of_step hallows.1 hs
  -- what a socket has sent stays sent
  have hsent (src : sockaddr ipv) {m : Message ipv} (hm : m ∈ (net src).sent) :
      m ∈ (Function.update net addr s src).sent := by
    by_cases hsrc : src = addr
    · subst hsrc
      rw [Function.update_self]
      exact hfollows.sent.subset hm
    · rwa [Function.update_of_ne hsrc]
  refine ⟨fun a => ?_, fun a src data hdata => hsent src ?_⟩
  · by_cases ha : a = addr
    · subst ha
      rwa [Function.update_self]
    · rw [Function.update_of_ne ha]
      exact h.socket a
  · by_cases ha : a = addr
    · subst ha
      rw [Function.update_self] at hdata
      rcases hfollows.arrived _ hdata with hold | hbrings
      · exact h.arrived a src data hold
      · exact hallows.2 src data hbrings
    · rw [Function.update_of_ne ha] at hdata
      exact h.arrived a src data hdata

/-- **An echo answers with what it has been sent**, in every run, whatever the network loses, repeats or puts out of
order. What arrives from a socket whose program sends nothing of its own is what was sent there, and that socket
is an echo. -/
theorem answers_echo {onMessageCallback_ : sockaddr ipv → Option Bool}
    {events : List (sockaddr ipv × Udp.Event ipv κ)}
    (hrun : Run (Steps (step inet_ntop) Allows) (new onMessageCallback_) events net) {addr src : sockaddr ipv}
    {data : Bytes} (harrived : (src, data) ∈ (net addr).arrived) (hsilent : (net src).said = []) :
    (net src).onMessageCallback_ = some true ∧ (src, data) ∈ (net addr).sent := by
  have h : Inv net := hrun.invariant (.new _) fun _ _ _ h hstep => h.step hstep.1 hstep.2
  have hsent := h.arrived addr src data harrived
  have haccepted := (h.socket src).order.subset (List.mem_append_left _ hsent)
  rcases (h.socket src).sources _ haccepted with hsaid | ⟨hecho, hanswered⟩
  · rw [hsilent] at hsaid
    cases hsaid
  · exact ⟨hecho, h.arrived src addr data hanswered⟩

/-- The echo. -/
def sampleEcho : sockaddr .Ipv4 := sockaddr_in.mk (htons 10003) ⟨127, 0, 0, 1⟩

/-- An echo, another socket, and no other. -/
def pair (s c : Udp .Ipv4 ℕ) : Network .Ipv4 ℕ := fun addr =>
  if addr = sampleEcho then s else if addr = Udp.samplePeer then c else .new none

@[simp] theorem pair_echo (s c : Udp .Ipv4 ℕ) : pair s c sampleEcho = s := if_pos rfl

@[simp] theorem pair_peer (s c : Udp .Ipv4 ℕ) : pair s c Udp.samplePeer = c :=
  (if_neg (by decide)).trans (if_pos rfl)

theorem step_pair_echo {s : Udp .Ipv4 ℕ} {e : Udp.Event .Ipv4 ℕ} (s' : Udp .Ipv4 ℕ) (h : s.step inet_ntop e = .ok s')
    (c : Udp .Ipv4 ℕ) : (pair s c).step inet_ntop (sampleEcho, e) = .ok (pair s' c) := by
  rw [step, pair_echo, h, Exec.ok_bind, Except.ok.injEq]
  funext addr
  by_cases haddr : addr = sampleEcho
  · rw [haddr, Function.update_self, pair_echo]
  · rw [Function.update_of_ne haddr, pair, pair, if_neg haddr, if_neg haddr]

theorem step_pair_peer {c : Udp .Ipv4 ℕ} {e : Udp.Event .Ipv4 ℕ} (c' : Udp .Ipv4 ℕ) (h : c.step inet_ntop e = .ok c')
    (s : Udp .Ipv4 ℕ) : (pair s c).step inet_ntop (Udp.samplePeer, e) = .ok (pair s c') := by
  rw [step, pair_peer, h, Exec.ok_bind, Except.ok.injEq]
  funext addr
  by_cases haddr : addr = Udp.samplePeer
  · rw [haddr, Function.update_self, pair_peer]
  · rw [Function.update_of_ne haddr, pair, pair, if_neg haddr, if_neg haddr]

/-- A socket that has sent a message. -/
def samplePeerSent : Udp .Ipv4 ℕ :=
  { Udp.new (some false) with
    reading := true, memory := [none], handles := [some []], completed := [0], said := [(sampleEcho, [104, 105])],
    accepted := [(sampleEcho, [104, 105])], sent := [(sampleEcho, [104, 105])] }

/-- The echo, which has answered. -/
def sampleEchoSent : Udp .Ipv4 ℕ :=
  { Udp.new (some true) with
    reading := true, memory := [none], handles := [some []], completed := [0],
    arrived := [(Udp.samplePeer, [104, 105])], accepted := [(Udp.samplePeer, [104, 105])],
    sent := [(Udp.samplePeer, [104, 105])] }

/-- A program sends a message to an echo, and the answer arrives. -/
theorem answers_echo_sample : ∃ net : Network .Ipv4 ℕ, (sampleEcho, [104, 105]) ∈ (net Udp.samplePeer).sent := by
  have hnew : new (fun addr => if addr = sampleEcho then some true else if addr = Udp.samplePeer then some false
      else none) = pair (.new (some true)) (.new (some false)) := by
    funext addr
    rw [new, pair]
    split
    · rfl
    · split
      · rfl
      · rfl
  have hrun : Run (Steps (step Addressed.sampleText) Allows) (new fun addr => if addr = sampleEcho then some true
      else if addr = Udp.samplePeer then some false else none) [] (pair (.new (some true)) (.new (some false))) :=
    hnew ▸ .nil _
  have hrun := hrun.snoc (a := (sampleEcho, Udp.Event.bindAndRead 0 0))
    ⟨⟨fun _ => rfl, by simp [Udp.Event.brings]⟩, step_pair_echo { Udp.new (some true) with reading := true } rfl _⟩
  have hrun := hrun.snoc (a := (Udp.samplePeer, Udp.Event.bindAndRead 0 0))
    ⟨⟨fun _ => rfl, by simp [Udp.Event.brings]⟩, step_pair_peer { Udp.new (some false) with reading := true } rfl _⟩
  have hrun := hrun.snoc
    (a := (Udp.samplePeer, Udp.Event.say (.ofSockaddr Addressed.sampleText sampleEcho) [104, 105] 0 true false))
    ⟨⟨⟨fun _ => rfl, fun _ => rfl⟩, by simp [Udp.Event.brings]⟩, step_pair_peer samplePeerSent rfl _⟩
  have hrun := hrun.snoc (a := (sampleEcho, Udp.Event.receive 2 [104, 105, 0] Udp.samplePeer 0 true))
    ⟨⟨⟨rfl, rfl, by decide, fun _ => rfl⟩, by
      rintro src data hmem
      obtain ⟨rfl, rfl⟩ := Prod.mk.inj (List.mem_singleton.mp hmem)
      rw [pair_peer]
      exact List.mem_singleton.mpr rfl⟩, step_pair_echo sampleEchoSent rfl _⟩
  have hrun := hrun.snoc (a := (Udp.samplePeer, Udp.Event.receive 2 [104, 105, 0] sampleEcho 0 false))
    ⟨⟨⟨rfl, rfl, by decide, fun h => by cases h⟩, by
      rintro src data hmem
      obtain ⟨rfl, rfl⟩ := Prod.mk.inj (List.mem_singleton.mp hmem)
      rw [pair_echo]
      exact List.mem_singleton.mpr rfl⟩, step_pair_peer { samplePeerSent with
        memory := [none, none], arrived := [(sampleEcho, [104, 105])] } rfl _⟩
  refine ⟨_, (answers_echo hrun ?_ ?_).2⟩
  · rw [pair_peer]
    exact List.mem_singleton.mpr rfl
  · rw [pair_echo]
    rfl

end Network

end UvCpp
