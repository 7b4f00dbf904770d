import Mathlib.Data.List.Find
import Mathlib.Data.List.Nodup
import Patchbay.Proofs.Distinct
import Patchbay.Proofs.Wiring.Search
import Patchbay.Wiring.Route

/-!
# Greedy routes

The walk of `Wiring.follow` skips every position that is placed, those of its own route among
them.  In an acyclic wiring the latter never matter, because a target is never earlier in the same
route.  So a route can be described without the walk: `Greedy before route` says that each position
is followed by its first target outside `before`, and that the route ends only where there is none.

## Shape of the proof

* `follow_greedy`: the walk from a position is greedy past what was placed before its route.  The
  induction is on the fuel; the trail walked so far (`IsTrail`) carries that the fuel suffices and
  that no target is on it.
* `routesFrom_greedy`: each route is greedy past the routes before it.
* `nodup_flatten_routes`: a position in two routes would be a target of an earlier one, or a
  root with an input.
-/

open Relation

namespace Patchbay.Wiring

variable {w : Wiring}

/-- Each position of the route is followed by its first target outside `before`, and the last one
has none. -/
def Greedy (w : Wiring) (before route : List ℕ) : Prop :=
  ∀ k p, route[k]? = some p → route[k + 1]? = (w.feeds p).find? (!before.contains ·)

/-! ## Greedy routes -/

/-- A greedy route goes on greedily behind its first position. -/
theorem greedy_cons {before rest : List ℕ} {p : ℕ} :
    w.Greedy before (p :: rest) ↔
      rest.head? = (w.feeds p).find? (!before.contains ·) ∧ w.Greedy before rest := by
  constructor
  · intro h
    refine ⟨?_, fun k q hq => ?_⟩
    · simpa [List.head?_eq_getElem?] using h 0 p rfl
    · simpa using h (k + 1) q (by simpa using hq)
  · rintro ⟨hhead, hrest⟩ k q hq
    cases k with
    | zero =>
      obtain rfl : p = q := by simpa using hq
      simpa [List.head?_eq_getElem?] using hhead
    | succ k => simpa using hrest k q (by simpa using hq)

/-- Only which positions are placed before matters. -/
theorem Greedy.congr {before before' route : List ℕ} (h : w.Greedy before route)
    (hmem : ∀ p, p ∈ before ↔ p ∈ before') : w.Greedy before' route := by
  intro k p hp
  rw [h k p hp]
  refine List.find?_congr fun q _ => ?_
  rw [Bool.eq_iff_iff]
  simp [hmem]

/-- A greedy route follows connections. -/
theorem Greedy.path {before route : List ℕ} (h : w.Greedy before route) :
    route.IsChain w.Feeds := by
  induction route with
  | nil => exact .nil
  | cons p rest ih =>
    obtain ⟨hhead, hrest⟩ := greedy_cons.mp h
    refine (ih hrest).cons fun q hq => ?_
    rw [hhead] at hq
    exact List.mem_of_find?_eq_some hq

/-- A position of a greedy route is its first one, or a target outside `before`. -/
theorem Greedy.mem {before rest : List ℕ} {root p : ℕ} (h : w.Greedy before (root :: rest))
    (hp : p ∈ root :: rest) : p = root ∨ p ∉ before ∧ ∃ q, w.Feeds q p := by
  induction rest generalizing root with
  | nil => exact .inl (List.mem_singleton.mp hp)
  | cons next rest ih =>
    obtain ⟨hhead, hrest⟩ := greedy_cons.mp h
    rcases List.mem_cons.mp hp with rfl | hp
    · exact .inl rfl
    · rcases ih hrest hp with rfl | hp
      · have hfind := hhead.symm
        refine .inr ⟨?_, root, List.mem_of_find?_eq_some hfind⟩
        simpa using List.find?_some hfind
      · exact .inr hp

/-- In an acyclic wiring a path visits no position twice. -/
theorem Acyclic.nodup_of_path (hacyclic : w.Acyclic) {route : List ℕ}
    (h : route.IsChain w.Feeds) : route.Nodup := by
  have hpath : route.IsChain (TransGen w.Feeds) := h.imp fun _ _ => TransGen.single
  refine (List.isChain_iff_pairwise.mp hpath).imp fun hab heq => ?_
  exact hacyclic _ (heq ▸ hab)

/-! ## The walk from a position -/

/-- A walk begins where it is. -/
theorem head?_follow (fuel : ℕ) (placed : List ℕ) (p : ℕ) :
    (w.follow fuel placed p).head? = some p := by
  cases fuel with
  | zero => rfl
  | succ fuel =>
    rw [follow]
    split <;> rfl

/-- In an acyclic wiring no target of the latest position is on the trail. -/
theorem Acyclic.not_mem_trail (hacyclic : w.Acyclic) {p q : ℕ} {walked : List ℕ}
    (htrail : w.IsTrail (p :: walked)) (hpq : w.Feeds p q) : q ∉ p :: walked := fun hq =>
  hacyclic p (TransGen.head' hpq (reflTransGen_head_of_path htrail.path hq))

/-- The walk from a position is greedy past what was placed before its trail. -/
theorem follow_greedy (hrange : w.InRange) (hacyclic : w.Acyclic) {before : List ℕ} (fuel : ℕ)
    {placed walked : List ℕ} {p : ℕ} (htrail : w.IsTrail (p :: walked))
    (hplaced : ∀ q, q ∈ placed ↔ q ∈ p :: walked ∨ q ∈ before)
    (hfuel : w.size < fuel + (p :: walked).length) :
    w.Greedy before (w.follow fuel placed p) := by
  induction fuel generalizing placed walked p with
  | zero =>
    -- without fuel the trail would be longer than the wiring
    have hlen := htrail.length_le
    omega
  | succ fuel ih =>
    -- beside what was placed before only the trail is placed, and no target is on that
    have hfind : (w.targets p).find? (!placed.contains ·) =
        (w.feeds p).find? (!before.contains ·) := by
      rw [targets, find?_eraseDups]
      refine List.find?_congr fun q hq => ?_
      have hfresh := hacyclic.not_mem_trail htrail hq
      rw [Bool.eq_iff_iff]
      simp only [Bool.not_eq_true', List.contains_eq_mem, decide_eq_false_iff_not, hplaced]
      simp [hfresh]
    rw [follow, hfind]
    cases hnext : (w.feeds p).find? (!before.contains ·) with
    | none => exact greedy_cons.mpr ⟨hnext.symm, by intro k q hq; simp at hq⟩
    | some next =>
      have hstep : w.Feeds p next := List.mem_of_find?_eq_some hnext
      have hfresh := hacyclic.not_mem_trail htrail hstep
      have htrail' : w.IsTrail (next :: p :: walked) :=
        htrail.push (hrange p next hstep) (by simpa using hstep) hfresh
      refine greedy_cons.mpr ⟨by rw [head?_follow, hnext], ih htrail' (fun q => ?_) ?_⟩
      · rw [List.mem_cons, hplaced, List.mem_cons (b := next), or_assoc]
      · simp only [List.length_cons] at hfuel ⊢
        omega

/-! ## The routes from a list of roots -/

/-- The routes begin with the roots. -/
theorem map_head?_routesFrom (placed roots : List ℕ) :
    (w.routesFrom placed roots).map List.head? = roots.map some := by
  induction roots generalizing placed with
  | nil => rfl
  | cons root rest ih => rw [routesFrom, List.map_cons, List.map_cons, head?_follow, ih]

/-- Each route is greedy past what was placed at the start and the routes before it. -/
theorem routesFrom_greedy (hrange : w.InRange) (hacyclic : w.Acyclic) {placed roots : List ℕ}
    (hroots : ∀ root ∈ roots, root < w.size) {i : ℕ} {route : List ℕ}
    (hroute : (w.routesFrom placed roots)[i]? = some route) :
    w.Greedy (((w.routesFrom placed roots).take i).flatten ++ placed) route := by
  induction roots generalizing placed i with
  | nil => simp [routesFrom] at hroute
  | cons root rest ih =>
    obtain ⟨hroot, hrest⟩ := List.forall_mem_cons.mp hroots
    rw [routesFrom] at hroute ⊢
    cases i with
    | zero =>
      obtain rfl := Option.some.inj hroute
      have htrail : w.IsTrail [root] :=
        ⟨List.nodup_singleton root, by simpa using hroot, .singleton root⟩
      exact follow_greedy hrange hacyclic w.size htrail (fun q => by simp) (by simp)
    | succ i =>
      have htail := ih hrest (by simpa using hroute)
      refine htail.congr fun q => ?_
      simp only [List.take_succ_cons, List.flatten_cons, List.mem_append]
      tauto

/-! ## The routes of a wiring -/

theorem lt_size_of_mem_roots {root : ℕ} (h : root ∈ w.roots) : root < w.size :=
  List.mem_range.mp (List.mem_of_mem_filter h)

/-- There is a route for each root, in order, that begins with it. -/
theorem map_head?_routes : w.routes.map List.head? = w.roots.map some :=
  map_head?_routesFrom [] w.roots

/-- Each route is greedy past the routes before it. -/
theorem routes_greedy (hrange : w.InRange) (hacyclic : w.Acyclic) {i : ℕ} {route : List ℕ}
    (hroute : w.routes[i]? = some route) : w.Greedy (w.routes.take i).flatten route := by
  have h := routesFrom_greedy hrange hacyclic (fun _ => lt_size_of_mem_roots) hroute
  simpa [routes] using h

/-- The first position of the route at a place is the root at that place. -/
theorem exists_root_of_routes {i : ℕ} {route : List ℕ} (hroute : w.routes[i]? = some route) :
    ∃ root rest, route = root :: rest ∧ w.roots[i]? = some root := by
  have hhead : (w.routes.map List.head?)[i]? = some route.head? := by
    rw [List.getElem?_map, hroute, Option.map_some]
  rw [map_head?_routes, List.getElem?_map] at hhead
  obtain ⟨root, hroot, hsome⟩ := Option.map_eq_some_iff.mp hhead
  obtain ⟨rest, rfl⟩ := List.head?_eq_some_iff.mp hsome.symm
  exact ⟨root, rest, rfl, hroot⟩

/-- All that is on a route are positions. -/
theorem lt_size_of_mem_routes (hrange : w.InRange) (hacyclic : w.Acyclic) {route : List ℕ} {p : ℕ}
    (hroute : route ∈ w.routes) (hp : p ∈ route) : p < w.size := by
  obtain ⟨i, hi⟩ := List.mem_iff_getElem?.mp hroute
  have hgreedy := routes_greedy hrange hacyclic hi
  obtain ⟨root, rest, rfl, hroot⟩ := exists_root_of_routes hi
  rcases hgreedy.mem hp with rfl | ⟨-, q, hq⟩
  · exact lt_size_of_mem_roots (List.mem_of_getElem? hroot)
  · exact hrange q p hq

/-- No position is placed twice.  What the walk goes on to is no root and in no earlier route, and
each root begins one route only. -/
theorem nodup_flatten_routes (hrange : w.InRange) (hacyclic : w.Acyclic)
    (hinputs : ∀ p q, w.Feeds p q → w.inputs q ≠ 0) : w.routes.flatten.Nodup := by
  have hroots : w.roots.Nodup := List.nodup_range.filter _
  -- roots have no inputs, and what is fed has some
  have hrootless : ∀ root ∈ w.roots, ∀ q, ¬ w.Feeds q root := by
    intro root hroot q hq
    have hzero := (List.mem_filter.mp hroot).2
    exact hinputs q root hq (by simpa using hzero)
  refine List.nodup_flatten.mpr ⟨fun route hroute => ?_, ?_⟩
  · obtain ⟨i, hi⟩ := List.mem_iff_getElem?.mp hroute
    exact hacyclic.nodup_of_path (routes_greedy hrange hacyclic hi).path
  · refine List.pairwise_iff_getElem.mpr fun i j hi hj hij p hpi hpj => ?_
    have hgetj : w.routes[j]? = some w.routes[j] := List.getElem?_eq_getElem hj
    have hgeti : w.routes[i]? = some w.routes[i] := List.getElem?_eq_getElem hi
    obtain ⟨root, rest, heqj, hrootj⟩ := exists_root_of_routes hgetj
    obtain ⟨root', rest', heqi, hrooti⟩ := exists_root_of_routes hgeti
    have hgreedyj := routes_greedy hrange hacyclic hgetj
    have hgreedyi := routes_greedy hrange hacyclic hgeti
    rw [heqj] at hgreedyj hpj
    rcases hgreedyj.mem hpj with rfl | ⟨hfresh, -⟩
    · -- `p` begins the later route, so nothing feeds it and it begins the earlier one too
      rw [heqi] at hgreedyi hpi
      rcases hgreedyi.mem hpi with rfl | ⟨-, q, hq⟩
      · have hlt := (List.getElem?_eq_some_iff.mp hrooti).1
        exact hij.ne ((List.getElem?_inj hlt hroots).mp (hrooti.trans hrootj.symm))
      · exact hrootless p (List.mem_of_getElem? hrootj) q hq
    · refine hfresh (List.mem_flatten.mpr ⟨w.routes[i], ?_, hpi⟩)
      exact List.mem_take_iff_getElem.mpr ⟨i, by omega, rfl⟩

end Patchbay.Wiring
