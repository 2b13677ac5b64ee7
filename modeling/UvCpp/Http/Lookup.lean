import UvCpp.Http.HttpServer
import UvCpp.Http.Completed

/-!
# Looking up a route

For a whole request `onMesage` takes the tree of the request's method and searches it for the path.
There is a tree for each of the nine methods, and no other method is parsed
(`methon_ne_of_unpackAndCompleted`). A search returns from every tree that has a node, whatever the
keys are; but `get` on a tree in which nothing was set starts from the null root. So the lookup is safe
exactly if some route was registered for the method (`lookup_safe_iff`).
-/

namespace UvCpp.Http

open UvCpp.Cpp UvCpp.Buffer

/-- **Which trees can be searched**: those in which something was set. -/
theorem RadixTree.returns_get_iff {Value : Type} {kvs : List (Bytes × Value)} {t : RadixTree Value}
    (h : new.setAll kvs = .ok t) (key : Bytes) : (t.get key).Returns ↔ kvs ≠ [] := by
  rw [ne_eq, ← root_eq_null_iff h, get]
  constructor
  · rintro ⟨found, hget⟩ hnull
    rw [hnull] at hget
    cases hget
  · exact fun hroot => RadixTreeNodePtr.returns_getNode hroot key

/-! ### The method of a request -/

namespace Request

/-- A first line is accepted only with one of the nine methods. -/
theorem methon_ne_of_unpackUrl {r r' : RequestLine} {str : Bytes} (h : unpackUrl r str = .ok (0, r')) :
    r'.methon_ ≠ .Invalid := by
  obtain ⟨_, methon, target, version, line, -, hmethon, hpath, rfl⟩ := unpackUrl_eq_zero_iff.mp h
  -- the target is read without the method
  obtain ⟨_, _, _, htarget⟩ := exists_unpackPath target
  rw [htarget, Except.ok.injEq, Prod.mk.injEq] at hpath
  rw [← hpath.2]
  exact hmethon

/-- A whole request has one of the nine methods. -/
theorem methon_ne_of_unpackAndCompleted {r req : Request} {data : Bytes}
    (h : unpackAndCompleted r data = .ok (.Success, req)) : req.line.methon_ ≠ .Invalid := by
  rw [unpackAndCompleted, Exec.bind_eq_ok_iff] at h
  obtain ⟨⟨rst, m⟩, hm, h⟩ := h
  by_cases hrst : rst = .Success
  · subst hrst
    have hwhole := unpackAndCompleted_of_success hm
    rw [unpackAndCompleted, hm, Exec.ok_bind] at hwhole
    simp only at h hwhole
    rw [hwhole, Except.ok.injEq, Prod.mk.injEq] at h
    obtain ⟨_, _, _, _, -, -, hparse, -⟩ := Message.unpack_eq_success_iff.mp hm
    exact h.2 ▸ methon_ne_of_unpackUrl hparse
  · simp only [if_neg hrst, Except.ok.injEq, Prod.mk.injEq] at h
    exact absurd h.1 hrst

end Request

/-! ### The lookup -/

namespace HttpServer

variable {κ : Type}

/-- What `onMesage` looks up for a whole request. -/
def lookup (s : HttpServer κ) (req : Request) : Exec (Option (Option κ)) :=
  match s.route_[req.line.methon_.value]? with
  | none => .error .undefined
  | some route => route.get req.line.path_

/-- The lookup for a request is safe: it returns, and finds nothing if nothing is registered for the
method. -/
def SafeLookup (routes : List (Route κ)) (s : HttpServer κ) (req : Request) : Prop :=
  ∃ found, s.lookup req = .ok found ∧ ((∀ r ∈ routes, r.methon ≠ req.line.methon_) → found = none)

section Arrival

open LawfulPacketBuffer

variable {β : Type} [PacketBuffer β] [LawfulPacketBuffer β]

/-- **On a whole request `onMesage` empties the buffer and does the lookup**, and what it does then follows
from what that finds. -/
theorem onMesage_eq_lookup (s : HttpServer κ) (call : κ → Request → Response → Response) {b : β}
    (hb : Valid b) {chunk : Bytes} (hfit : Fits β ((contents b).length + chunk.length)) {req : Request}
    (hparse : Request.unpackAndCompleted Request.new (contents b ++ chunk) = .ok (.Success, req)) :
    ∃ b', Valid b' ∧ contents b' = [] ∧
      s.onMesage call (some b) chunk = (do
        let found ← s.lookup req
        .ok (some b', handled call req found)) := by
  obtain ⟨b', happ, hb', -, hread⟩ := append_read hb hfit
  obtain ⟨-, hvalid, hnil⟩ := clear_eq hb'
  refine ⟨_, hvalid, hnil, ?_⟩
  simp only [onMesage, happ, hread, hparse, Exec.ok_bind, lookup]
  cases s.route_[req.line.methon_.value]? with
  | none => rfl
  | some route =>
    dsimp only
    cases route.get req.line.path_ with
    | error e => rfl
    | ok found =>
      cases found with
      | none => rfl
      | some callback => cases callback <;> rfl

end Arrival

theorem settings_ne_nil_iff {routes : List (Route κ)} {methon : Methon} :
    settings routes methon ≠ [] ↔ ∃ r ∈ routes, r.methon = methon := by
  rw [settings, ne_eq, List.map_eq_nil_iff, List.filter_eq_nil_iff]
  simp

/-- **When a lookup is safe**: whatever the paths registered and asked for are, exactly if a route was
registered for the method of the request. The index is always inside `route_`. -/
theorem lookup_safe_iff (routes : List (Route κ)) (data : Bytes) (req : Request)
    (hreq : Request.unpackAndCompleted Request.new data = .ok (.Success, req)) :
    ∃ s, addRoutes routes = .ok s ∧ req.line.methon_.value < s.route_.length ∧
      (SafeLookup routes s req ↔ ∃ r ∈ routes, r.methon = req.line.methon_) := by
  obtain ⟨s, hs, htrees⟩ := addRoutes_eq routes
  have hmethon := Request.methon_ne_of_unpackAndCompleted hreq
  obtain ⟨route, hroute, hset⟩ := htrees req.line.methon_ hmethon
  have hlookup : s.lookup req = route.get req.line.path_ := by rw [lookup, hroute]
  refine ⟨s, hs, s.size ▸ value_lt hmethon, ?_⟩
  rw [SafeLookup, hlookup, ← settings_ne_nil_iff, ← RadixTree.returns_get_iff hset req.line.path_]
  constructor
  · rintro ⟨found, hfound, -⟩
    exact ⟨found, hfound⟩
  · rintro ⟨found, hfound⟩
    refine ⟨found, hfound, fun hnone => ?_⟩
    obtain ⟨r, hr, hrm⟩ := settings_ne_nil_iff.mp
      ((RadixTree.returns_get_iff hset req.line.path_).mp ⟨found, hfound⟩)
    exact absurd hrm (hnone r hr)

/-- A route for every path, and one for the empty path. -/
def sampleRoutes : List (Route ℕ) := [⟨.Get, bytes "*", some 0, by decide⟩, ⟨.Post, [], some 1, by decide⟩]

theorem lookup_safe_iff_sample :
    ∃ req s, Request.unpackAndCompleted Request.new (bytes "GET /a HTTP/1.1\r\n\r\n") = .ok (.Success, req) ∧
      addRoutes sampleRoutes = .ok s ∧ req.line.methon_.value < s.route_.length ∧
        (SafeLookup sampleRoutes s req ↔ ∃ r ∈ sampleRoutes, r.methon = req.line.methon_) := by
  have hreq : Request.unpackAndCompleted Request.new (bytes "GET /a HTTP/1.1\r\n\r\n") =
      .ok (.Success, ⟨⟨.Http1_1, .Get, bytes "/a", [], ∅⟩, ∅, []⟩) := rfl
  obtain ⟨s, hs, hindex, hiff⟩ := lookup_safe_iff sampleRoutes _ _ hreq
  exact ⟨_, s, hreq, hs, hindex, hiff⟩

/-- **A method without a route**: with nothing but a route for `GET`, the lookup for a `POST` request
dereferences a null pointer. -/
theorem not_lookup_safe :
    ∃ req s, Request.unpackAndCompleted Request.new (bytes "POST /a HTTP/1.1\r\n\r\n") = .ok (.Success, req) ∧
      addRoutes [⟨.Get, bytes "/a", some 0, by decide⟩] = .ok s ∧ s.lookup req = .error .undefined ∧
        s.onMesage (fun _ _ resp => resp) (some (⟨[]⟩ : ListBuffer)) (bytes "POST /a HTTP/1.1\r\n\r\n") =
          .error .undefined :=
  ⟨⟨⟨.Http1_1, .Post, bytes "/a", [], ∅⟩, ∅, []⟩, _, rfl, rfl, rfl, rfl⟩

end HttpServer

end UvCpp.Http
