import UvCpp.Cpp.Numerals
import UvCpp.Tcp.TcpAccepter

/-!
# Addresses

A server knows its connections by names, and a name is the text of the address of a peer, as
`SocketAddr::AddrToStr` writes it: the text of the IP address, a colon, and the port. Two addresses have the
same text only if they have the same IP address and the same port (`AddrToStr_inj`).

So nothing need be asked of the names. As long as no peer comes with the address of one whose connection libuv is
not done with, each connection in use is found under its own address, and under no other (`found_by_address`).
-/

namespace UvCpp

open UvCpp.Cpp UvCpp.Systems

/-! ### Socket addresses -/

/-- `SocketAddr::IPV`. -/
inductive IPV where
  | Ipv4
  | Ipv6
  deriving DecidableEq

/-- `in_addr`: the bytes of an address, in their order. -/
structure in_addr where
  b0 : UInt8
  b1 : UInt8
  b2 : UInt8
  b3 : UInt8
  deriving DecidableEq

/-- `sockaddr_in`; the port is in network byte order. -/
structure sockaddr_in where
  sin_port : UInt16
  sin_addr : in_addr
  deriving DecidableEq

/-- `sockaddr_in6`; the port is in network byte order. -/
structure sockaddr_in6 where
  sin6_port : UInt16
  sin6_addr : BitVec 128
  sin6_scope_id : UInt32
  deriving DecidableEq

/-- What a `sockaddr` is, in either version. -/
def sockaddr : IPV → Type
  | .Ipv4 => sockaddr_in
  | .Ipv6 => sockaddr_in6

/-- `htons`, which swaps the two bytes. -/
def htons (n : UInt16) : UInt16 := UInt16.ofNat (n.toNat % 256 * 256 + n.toNat / 256)

theorem toNat_htons (n : UInt16) : (htons n).toNat = n.toNat % 256 * 256 + n.toNat / 256 := by
  have hlt := n.toNat_lt
  rw [htons, UInt16.toNat_ofNat', Nat.mod_eq_of_lt]
  omega

theorem htons_htons (n : UInt16) : htons (htons n) = n := by
  have hlt := n.toNat_lt
  apply UInt16.toNat_inj.mp
  rw [toNat_htons, toNat_htons]
  omega

/-- `inet_ntoa`. -/
def inet_ntoa (a : in_addr) : Bytes :=
  numeral 10 a.b0.toNat ++ 46 :: (numeral 10 a.b1.toNat ++ 46 :: (numeral 10 a.b2.toNat ++ 46 ::
    numeral 10 a.b3.toNat))

section

variable (inet_ntop : BitVec 128 → Bytes)

/-- `GetIpAndPort`. -/
def GetIpAndPort : (ipv : IPV) → sockaddr ipv → Bytes × UInt16
  | .Ipv4, addr4 => (inet_ntoa addr4.sin_addr, htons addr4.sin_port)
  | .Ipv6, addr6 => (inet_ntop addr6.sin6_addr, htons addr6.sin6_port)

/-- `AddrToStr`, of the address that `uv_tcp_getpeername` gives. -/
def AddrToStr (ipv : IPV) (addr : sockaddr ipv) : Bytes :=
  let (addrStr, port) := GetIpAndPort inet_ntop ipv addr
  addrStr ++ 58 :: intToStr port.toNat

/-- Two addresses are one IP address and one port. -/
def SameEnd : (ipv : IPV) → sockaddr ipv → sockaddr ipv → Prop
  | .Ipv4, a, b => a.sin_addr = b.sin_addr ∧ a.sin_port = b.sin_port
  | .Ipv6, a, b => a.sin6_addr = b.sin6_addr ∧ a.sin6_port = b.sin6_port

/-- `uv::SocketAddr`, whose `ipv_` is constant. -/
structure SocketAddr (ipv_ : IPV) where
  ip_ : Bytes
  port_ : UInt16
  /-- `ipv4_` or `ipv6_`, as `ipv_` says. -/
  addr : sockaddr ipv_

namespace SocketAddr

variable {ipv_ : IPV}

/-- The constructor from a `sockaddr`. -/
def ofSockaddr (addr : sockaddr ipv_) : SocketAddr ipv_ :=
  let (ip_, port_) := GetIpAndPort inet_ntop ipv_ addr
  { ip_, port_, addr }

/-- `Addr`. -/
def Addr (x : SocketAddr ipv_) : sockaddr ipv_ := x.addr

/-- `toStr`. -/
def toStr (x : SocketAddr ipv_) : Bytes := x.ip_ ++ 58 :: intToStr x.port_.toNat

end SocketAddr

/-! ### The text of an address -/

theorem numeral_inj {m n : ℕ} (h : numeral 10 m = numeral 10 n) : m = n := by
  have hm := (isNumeral_numeral (by decide) (by decide) m : IsNumeral 10 _ m).value
  rwa [h, (isNumeral_numeral (by decide) (by decide) n : IsNumeral 10 _ n).value, eq_comm] at hm

/-- A numeral has neither a point nor a colon. -/
theorem notMem_numeral {n : ℕ} {c : UInt8} (hc : ∀ d < 10, c ≠ digitByte d) : c ∉ numeral 10 n := by
  intro hmem
  obtain ⟨d, hd, heq⟩ := mem_numeral (by decide) hmem
  exact hc d hd heq

/-- A text is cut in one way at the first place where a byte stands. -/
theorem append_cons_inj {c : UInt8} {a b s t : Bytes} (ha : c ∉ a) (hb : c ∉ b) (h : a ++ c :: s = b ++ c :: t) :
    a = b ∧ s = t := by
  induction a generalizing b with
  | nil =>
    cases b with
    | nil => exact ⟨rfl, (List.cons.inj h).2⟩
    | cons x b => exact absurd ((List.cons.inj h).1 ▸ List.mem_cons_self) hb
  | cons x a ih =>
    cases b with
    | nil => exact absurd ((List.cons.inj h).1 ▸ List.mem_cons_self) ha
    | cons y b =>
      obtain ⟨rfl, htail⟩ := List.cons.inj h
      obtain ⟨rfl, rfl⟩ := ih (fun hmem => ha (List.mem_cons_of_mem _ hmem))
        (fun hmem => hb (List.mem_cons_of_mem _ hmem)) htail
      exact ⟨rfl, rfl⟩

/-- The same, at the last place. -/
theorem append_cons_inj' {c : UInt8} {a b s t : Bytes} (hs : c ∉ s) (ht : c ∉ t) (h : a ++ c :: s = b ++ c :: t) :
    a = b ∧ s = t := by
  have hrev := congrArg List.reverse h
  simp only [List.reverse_append, List.reverse_cons, List.append_assoc, List.singleton_append] at hrev
  obtain ⟨h1, h2⟩ := append_cons_inj (fun hmem => hs (List.mem_reverse.mp hmem))
    (fun hmem => ht (List.mem_reverse.mp hmem)) hrev
  exact ⟨List.reverse_injective h2, List.reverse_injective h1⟩

theorem inet_ntoa_inj {a b : in_addr} (h : inet_ntoa a = inet_ntoa b) : a = b := by
  have hpoint {n : ℕ} : (46 : UInt8) ∉ numeral 10 n := notMem_numeral (by decide)
  obtain ⟨h0, h⟩ := append_cons_inj hpoint hpoint h
  obtain ⟨h1, h⟩ := append_cons_inj hpoint hpoint h
  obtain ⟨h2, h3⟩ := append_cons_inj hpoint hpoint h
  cases a
  cases b
  rw [in_addr.mk.injEq]
  exact ⟨UInt8.toNat_inj.mp (numeral_inj h0), UInt8.toNat_inj.mp (numeral_inj h1),
    UInt8.toNat_inj.mp (numeral_inj h2), UInt8.toNat_inj.mp (numeral_inj h3)⟩

/-- **Different ends have different names.** -/
theorem AddrToStr_inj (hntop : Function.Injective inet_ntop) {ipv : IPV} {a b : sockaddr ipv} :
    AddrToStr inet_ntop ipv a = AddrToStr inet_ntop ipv b ↔ SameEnd ipv a b := by
  have hcolon {n : UInt16} : (58 : UInt8) ∉ intToStr n.toNat := notMem_numeral (by decide)
  have hport {m n : UInt16} (h : intToStr (htons m).toNat = intToStr (htons n).toNat) : m = n := by
    rw [← htons_htons m, UInt16.toNat_inj.mp (numeral_inj h), htons_htons]
  cases ipv with
  | Ipv4 =>
    constructor
    · intro h
      obtain ⟨haddr, hnum⟩ := append_cons_inj' hcolon hcolon h
      exact ⟨inet_ntoa_inj haddr, hport hnum⟩
    · rintro ⟨haddr, hnum⟩
      simp only [AddrToStr, GetIpAndPort, haddr, hnum]
  | Ipv6 =>
    constructor
    · intro h
      obtain ⟨haddr, hnum⟩ := append_cons_inj' hcolon hcolon h
      exact ⟨hntop haddr, hport hnum⟩
    · rintro ⟨haddr, hnum⟩
      simp only [AddrToStr, GetIpAndPort, haddr, hnum]

/-! ### A server that goes by addresses -/

/-- A server with the addresses of the peers of its connections. -/
structure Addressed (ipv : IPV) where
  /-- The server. -/
  server : TcpServer
  /-- The address of the peer of each connection there has been. -/
  addresses : List (sockaddr ipv)

namespace Addressed

variable {ipv : IPV}

/-- A new server. -/
def new : Addressed ipv := ⟨.new, []⟩

/-- What happens. -/
inductive Event (ipv : IPV) where
  /-- A connection from a peer is accepted. -/
  | onAccept (client : sockaddr ipv)
  /-- Something else happens. -/
  | other (e : TcpServer.Event)

/-- A step, if it can happen and does not fault. -/
def step (s : Addressed ipv) : Event ipv → Option (Addressed ipv)
  | .onAccept client => (s.server.stepReused (.onAccept (AddrToStr inet_ntop ipv client))).map
      (Addressed.mk · (s.addresses ++ [client]))
  | .other (.onAccept _) => none
  | .other e => (s.server.stepReused e).map (Addressed.mk · s.addresses)

/-- libuv is done with every connection of a peer with this address. -/
def Gone (s : Addressed ipv) (client : sockaddr ipv) : Prop :=
  ∀ (id : ℕ) (addr : sockaddr ipv), s.addresses[id]? = some addr → SameEnd ipv addr client →
    s.server.stateOf id = some .closed

/-- What is asked: no peer comes with the address of one that libuv is not done with, and connections are closed
through the server. -/
def Careful (s : Addressed ipv) : Event ipv → Prop
  | .onAccept client => s.Gone client
  | .other e => ∀ id callback, e ≠ .closePeer id callback

/-- What holds in every run. -/
structure Inv (s : Addressed ipv) : Prop where
  /-- The connections are accounted for. -/
  tended : s.server.Tended
  /-- There is an address for each connection. -/
  length : s.addresses.length = s.server.peers.length
  /-- The name of a connection is the text of its address. -/
  name : ∀ (id : ℕ) (addr : sockaddr ipv) (p : Peer), s.addresses[id]? = some addr → s.server.peers[id]? = some p →
    p.conn.name_ = AddrToStr inet_ntop ipv addr

theorem Inv.new : Inv inet_ntop (Addressed.new : Addressed ipv) :=
  ⟨.new, rfl, fun _ _ _ haddr => by cases haddr⟩

variable {inet_ntop} {s s' : Addressed ipv}

/-- The address of a connection. -/
theorem Inv.exists_address (h : Inv inet_ntop s) {id : ℕ} {p : Peer} (hp : s.server.peers[id]? = some p) :
    ∃ addr, s.addresses[id]? = some addr ∧ p.conn.name_ = AddrToStr inet_ntop ipv addr := by
  obtain ⟨hlt, -⟩ := List.getElem?_eq_some_iff.mp hp
  have haddr := List.getElem?_eq_getElem (l := s.addresses) (h.length ▸ hlt)
  exact ⟨_, haddr, h.name id _ p haddr hp⟩

/-- **The name of a peer that is gone is fresh.** -/
theorem Inv.fresh (hntop : Function.Injective inet_ntop) (h : Inv inet_ntop s) (hreturning : s.server.returning = [])
    {client : sockaddr ipv} (hgone : s.Gone client) : s.server.Fresh (AddrToStr inet_ntop ipv client) := by
  have hclosed {id : ℕ} {p : Peer} (hp : s.server.peers[id]? = some p)
      (hname : p.conn.name_ = AddrToStr inet_ntop ipv client) : p.handle.state = .closed := by
    obtain ⟨addr, haddr, heq⟩ := h.exists_address hp
    have hstate := hgone id addr haddr ((AddrToStr_inj inet_ntop hntop).mp (heq.symm.trans hname))
    rw [TcpServer.stateOf_eq hp] at hstate
    exact Option.some.inj hstate
  refine ⟨?_, fun p hp hname => ?_⟩
  · -- what is in the map and closed is about to be erased, and nothing is
    by_contra hsome
    obtain ⟨id, hid⟩ := Option.ne_none_iff_exists'.mp hsome
    obtain ⟨p, hp, hname⟩ := h.tended.found _ id hid
    have hstate := hclosed hp hname
    have hmem := (h.tended.leaving _ id p hid hp (by simp [hstate])).2 hstate
    rw [hreturning] at hmem
    cases hmem
  · obtain ⟨id, hid⟩ := List.mem_iff_getElem?.mp hp
    exact hclosed hid hname

theorem Inv.onAccept (hntop : Function.Injective inet_ntop) (h : Inv inet_ntop s) {client : sockaddr ipv}
    (hgone : s.Gone client) (hstep : s.step inet_ntop (.onAccept client) = some s') : Inv inet_ntop s' := by
  obtain ⟨server, hserver, rfl⟩ := Option.map_eq_some_iff.mp hstep
  obtain ⟨hreturning, heq⟩ := TcpServer.stepReused_onAccept_iff.mp hserver
  have htended := h.tended.step (e := .onAccept _) (h.fresh hntop hreturning hgone)
    (fun _ _ heq => by cases heq) hserver
  subst heq
  refine ⟨htended, ?_, fun id addr p haddr hp => ?_⟩
  · simp [TcpServer.onAccept, TcpServer.addConnnection, h.length]
  · dsimp only at haddr hp
    rcases TcpServer.getElem?_onAccept s.server _ hp with hold | ⟨rfl, -, hname, -⟩
    · obtain ⟨hlt, -⟩ := List.getElem?_eq_some_iff.mp hold
      rw [List.getElem?_append_left (h.length ▸ hlt)] at haddr
      exact h.name id addr p haddr hold
    · rw [← h.length, List.getElem?_concat_length, Option.some.injEq] at haddr
      rw [hname, haddr]

theorem Inv.other (h : Inv inet_ntop s) {e : TcpServer.Event} (huser : ∀ id callback, e ≠ .closePeer id callback)
    (hstep : s.step inet_ntop (.other e) = some s') : Inv inet_ntop s' := by
  have haccept : ∀ name, e ≠ .onAccept name := by
    rintro name rfl
    cases hstep
  have hmap : (s.server.stepReused e).map (Addressed.mk · s.addresses) = some s' := by
    cases e with
    | onAccept name => exact absurd rfl (haccept name)
    | _ => exact hstep
  obtain ⟨server, hserver, rfl⟩ := Option.map_eq_some_iff.mp hmap
  have htended : server.Tended := by
    refine h.tended.step ?_ huser hserver
    cases e with
    | onAccept name => exact absurd rfl (haccept name)
    | _ => trivial
  rcases h.tended.toKept.step_cases hserver with ⟨name, rfl, -⟩ | ⟨name, returning, -, -, rfl⟩ | ⟨-, -, -, he⟩
  · exact absurd rfl (haccept name)
  · exact ⟨htended, h.length, h.name⟩
  · refine ⟨htended, h.length.trans he.length.symm, fun id addr p' haddr hp' => ?_⟩
    obtain ⟨p, hp, hpp'⟩ := he.peer id p' hp'
    exact hpp'.name.trans (h.name id addr p haddr hp)

/-- **The step lemma.** -/
theorem Inv.step (hntop : Function.Injective inet_ntop) (h : Inv inet_ntop s) {e : Event ipv}
    (hcareful : s.Careful e) (hstep : s.step inet_ntop e = some s') : Inv inet_ntop s' := by
  cases e with
  | onAccept client => exact h.onAccept hntop hcareful hstep
  | other e => exact h.other hcareful hstep

/-- **A connection in use is found under its address**, in every run in which no peer comes with the address of one
that libuv is not done with. What is found under an address is a connection of a peer with that address; and what ends
a connection in use closes it and no other. -/
theorem found_by_address (hntop : Function.Injective inet_ntop) {events : List (Event ipv)}
    (hrun : Run (fun s e s' => s.Careful e ∧ s.step inet_ntop e = some s') new events s) :
    (∀ (id : ℕ) (addr : sockaddr ipv), s.addresses[id]? = some addr → s.server.stateOf id = some .inUse →
        s.server.getConnnection (AddrToStr inet_ntop ipv addr) = some id ∧
        TcpServer.ClosesOnly s.server (s.server.onSocketClose id) id ∧
        ∀ e x, TcpServer.Ends id e → s.server.outcomeReused e = some x →
          ∃ server, x = .ok server ∧ TcpServer.ClosesOnly s.server server id) ∧
      ∀ (client : sockaddr ipv) (id : ℕ), s.server.getConnnection (AddrToStr inet_ntop ipv client) = some id →
        ∃ addr, s.addresses[id]? = some addr ∧ SameEnd ipv addr client := by
  have h : Inv inet_ntop s := hrun.invariant (Inv.new inet_ntop) fun _ _ _ h hstep => h.step hntop hstep.1 hstep.2
  refine ⟨fun id addr haddr hopen => ?_, fun client id hid => ?_⟩
  · obtain ⟨p, hp, hstate⟩ := Option.map_eq_some_iff.mp hopen
    have hmine := h.tended.mine id p hp (h.tended.armed id p hp hstate)
    rw [h.name id addr p haddr hp] at hmine
    have hcloses := h.tended.closesOnly hp hstate (.refl p) hstate
    rw [TcpServer.setPeer_self hp] at hcloses
    exact ⟨hmine, hcloses, fun e x hends hx => h.tended.ends hp hstate hends hx⟩
  · obtain ⟨p, hp, hname⟩ := h.tended.found _ id hid
    obtain ⟨addr, haddr, heq⟩ := h.exists_address hp
    exact ⟨addr, haddr, (AddrToStr_inj inet_ntop hntop).mp (heq.symm.trans hname)⟩

/-- A text for each address of version 6. -/
def sampleText (addr : BitVec 128) : Bytes := numeral 10 addr.toNat

/-- A peer. -/
def sampleClient : sockaddr .Ipv4 := sockaddr_in.mk (htons 80) ⟨10, 0, 0, 7⟩

/-- A peer connects, its connection is closed, and it connects again. -/
theorem found_by_address_sample : ∃ s : Addressed .Ipv4, s.server.stateOf 0 = some .closed ∧
    s.server.getConnnection (bytes "10.0.0.7:80") = some 1 := by
  have hntop : Function.Injective sampleText := fun a b h => BitVec.eq_of_toNat_eq (numeral_inj h)
  have hname : AddrToStr sampleText .Ipv4 sampleClient = bytes "10.0.0.7:80" := by decide +kernel
  -- the states, one after another
  have hfacts : ((new.step sampleText (.onAccept sampleClient)).bind
      fun s => (s.step sampleText (.other (.expire 0))).bind
      fun s => (s.step sampleText (.other (.closed 0))).bind
      fun s => (s.step sampleText (.other .returned)).bind
      fun t => (t.step sampleText (.onAccept sampleClient)).map fun u => (t.server.stateOf 0, t.addresses.length,
        u.server.stateOf 0, u.server.stateOf 1)) =
      some (some .closed, 1, some .closed, some .inUse) := by decide +kernel
  obtain ⟨s₁, h₁, hfacts⟩ := Option.bind_eq_some_iff.mp hfacts
  obtain ⟨s₂, h₂, hfacts⟩ := Option.bind_eq_some_iff.mp hfacts
  obtain ⟨s₃, h₃, hfacts⟩ := Option.bind_eq_some_iff.mp hfacts
  obtain ⟨t, h₄, hfacts⟩ := Option.bind_eq_some_iff.mp hfacts
  obtain ⟨u, h₅, hfacts⟩ := Option.map_eq_some_iff.mp hfacts
  simp only [Prod.mk.injEq] at hfacts
  obtain ⟨hgone, hlength, hclosed, hopen⟩ := hfacts
  have hrun : Run (fun s e s' => s.Careful e ∧ s.step sampleText e = some s') (new : Addressed .Ipv4) [] new := .nil _
  have hrun := hrun.snoc (a := Event.onAccept sampleClient) ⟨fun id addr haddr => (by cases haddr), h₁⟩
  have hrun := hrun.snoc (a := Event.other (.expire 0)) ⟨by simp [Careful], h₂⟩
  have hrun := hrun.snoc (a := Event.other (.closed 0)) ⟨by simp [Careful], h₃⟩
  have hrun := hrun.snoc (a := Event.other .returned) ⟨by simp [Careful], h₄⟩
  have hagain : t.Gone sampleClient := by
    intro id addr haddr _
    obtain ⟨hlt, -⟩ := List.getElem?_eq_some_iff.mp haddr
    obtain rfl : id = 0 := by omega
    exact hgone
  have hrun := hrun.snoc (a := Event.onAccept sampleClient) ⟨hagain, h₅⟩
  obtain ⟨hfound, -⟩ := found_by_address hntop hrun
  have haddr : u.addresses[1]? = some sampleClient := by
    obtain ⟨server, -, rfl⟩ := Option.map_eq_some_iff.mp h₅
    rw [← hlength]
    exact List.getElem?_concat_length
  refine ⟨u, hclosed, ?_⟩
  rw [← hname]
  exact (hfound 1 sampleClient haddr hopen).1

end Addressed

end

end UvCpp
