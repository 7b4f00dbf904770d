import Mathlib.Data.List.Chain
import Mathlib.Data.List.Perm.Subperm
import Mathlib.Logic.Relation
import Patchbay.Wiring.Cycle

/-!
# The depth-first search for a cycle

`Wiring.cycle?` searches a wiring from every position and names the position at which the first
cycle met closes.  This module shows that what it names lies on a directed cycle, and that it
names nothing exactly when no position does.

## Shape of the proof

`search_answered` is one induction over the fuel, with one over the list of positions to visit
inside it.  It carries `Underway`, which says of a search under way that

* the open positions are distinct, and each feeds the one opened after it, so a connection back to
  one of them closes a cycle;
* the finished positions are `Settled`: each feeds only positions that were finished before it, so
  no cycle meets them;
* no position is open and finished.

The trail holds distinct positions, so it is never longer than the wiring has positions; that is
why the fuel of `cycle?` is never used up.
-/

open Relation

namespace Patchbay.Wiring

/-- A connection leads from one position to another. -/
def Feeds (w : Wiring) (p q : ℕ) : Prop := q ∈ w.feeds p

/-- Every connection leads to a kept position. -/
def InRange (w : Wiring) : Prop := ∀ p q, w.Feeds p q → q < w.size

/-- No position lies on a directed cycle. -/
def Acyclic (w : Wiring) : Prop := ∀ p, ¬ TransGen w.Feeds p p

/-! ## Finished positions -/

/-- A list of positions, the latest first, each of which feeds only earlier ones. -/
def Settled (w : Wiring) : List ℕ → Prop
  | [] => True
  | p :: rest => p ∉ rest ∧ (∀ q, w.Feeds p q → q ∈ rest) ∧ w.Settled rest

/-- Connections out of settled positions lead to settled positions. -/
theorem Settled.closed {w : Wiring} {l : List ℕ} (h : w.Settled l) {p q : ℕ} (hp : p ∈ l)
    (hpq : w.Feeds p q) : q ∈ l := by
  induction l with
  | nil => exact absurd hp List.not_mem_nil
  | cons a rest ih =>
    obtain ⟨-, hfeeds, hrest⟩ := h
    rcases List.mem_cons.mp hp with rfl | hp
    · exact List.mem_cons_of_mem _ (hfeeds q hpq)
    · exact List.mem_cons_of_mem _ (ih hrest hp)

/-- Paths out of settled positions stay among them. -/
theorem Settled.closed_reflTransGen {w : Wiring} {l : List ℕ} (h : w.Settled l) {p q : ℕ}
    (hp : p ∈ l) (hpq : ReflTransGen w.Feeds p q) : q ∈ l := by
  induction hpq with
  | refl => exact hp
  | tail _ hqr ih => exact h.closed ih hqr

/-- No settled position lies on a cycle. -/
theorem Settled.not_transGen_self {w : Wiring} {l : List ℕ} (h : w.Settled l) {p : ℕ}
    (hp : p ∈ l) : ¬ TransGen w.Feeds p p := by
  induction l with
  | nil => exact absurd hp List.not_mem_nil
  | cons a rest ih =>
    obtain ⟨hfresh, hfeeds, hrest⟩ := h
    intro hcycle
    rcases List.mem_cons.mp hp with rfl | hp
    · -- the first step leaves `p` for the positions before it, and no path leads back
      obtain ⟨q, hq, hback⟩ := TransGen.head'_iff.mp hcycle
      exact hfresh (hrest.closed_reflTransGen (hfeeds q hq) hback)
    · exact ih hrest hp hcycle

/-! ## The search, one position at a time -/

/-- A finished position is passed over. -/
theorem search_cons_finished (w : Wiring) (fuel : ℕ) (trail : List ℕ) {finished : List ℕ} {p : ℕ}
    (next : List ℕ) (h : p ∈ finished) :
    w.search (fuel + 1) trail finished (p :: next) = w.search (fuel + 1) trail finished next := by
  simp only [search, List.foldlM_cons]
  rw [if_pos (List.contains_iff_mem.mpr h)]
  rfl

/-- A connection to an open position closes a cycle. -/
theorem search_cons_open (w : Wiring) (fuel : ℕ) {trail finished : List ℕ} {p : ℕ}
    (next : List ℕ) (hfinished : p ∉ finished) (htrail : p ∈ trail) :
    w.search (fuel + 1) trail finished (p :: next) = .error p := by
  simp only [search, List.foldlM_cons]
  rw [if_neg (mt List.contains_iff_mem.mp hfinished), if_pos (List.contains_iff_mem.mpr htrail)]
  rfl

/-- A new position is opened and finished when all below it has been searched. -/
theorem search_cons_fresh (w : Wiring) (fuel : ℕ) {trail finished : List ℕ} {p : ℕ}
    (next : List ℕ) (hfinished : p ∉ finished) (htrail : p ∉ trail) :
    w.search (fuel + 1) trail finished (p :: next) =
      match w.search fuel (p :: trail) finished (w.feeds p).reverse with
      | .ok below => w.search (fuel + 1) trail (p :: below) next
      | .error q => .error q := by
  simp only [search, List.foldlM_cons]
  rw [if_neg (mt List.contains_iff_mem.mp hfinished), if_neg (mt List.contains_iff_mem.mp htrail)]
  cases w.search fuel (p :: trail) finished (w.feeds p).reverse <;> rfl

/-! ## The invariant of a search under way -/

/-- Distinct positions, the latest first, each of which is fed by the one after it. -/
structure IsTrail (w : Wiring) (trail : List ℕ) : Prop where
  nodup : trail.Nodup
  lt_size : ∀ p ∈ trail, p < w.size
  path : trail.IsChain fun p q => w.Feeds q p

/-- A trail is no longer than the wiring has positions. -/
theorem IsTrail.length_le {w : Wiring} {trail : List ℕ} (h : w.IsTrail trail) :
    trail.length ≤ w.size := by
  have hsub : trail ⊆ List.range w.size := fun p hp => List.mem_range.mpr (h.lt_size p hp)
  simpa using (h.nodup.subperm hsub).length_le

/-- Every position of a trail leads to the latest one. -/
theorem reflTransGen_head_of_path {w : Wiring} {p t : ℕ} {rest : List ℕ}
    (h : (t :: rest).IsChain fun p q => w.Feeds q p) (hp : p ∈ t :: rest) :
    ReflTransGen w.Feeds p t := by
  induction rest generalizing t with
  | nil => rw [List.mem_singleton.mp hp]
  | cons s rest ih =>
    obtain ⟨hst, htail⟩ := List.isChain_cons_cons.mp h
    rcases List.mem_cons.mp hp with rfl | hp
    · exact .refl
    · exact (ih htail hp).tail hst

/-- A trail goes on to a new position that its latest one feeds. -/
theorem IsTrail.push {w : Wiring} {trail : List ℕ} {p : ℕ} (h : w.IsTrail trail)
    (hp : p < w.size) (hfed : ∀ t ∈ trail.head?, w.Feeds t p) (hfresh : p ∉ trail) :
    w.IsTrail (p :: trail) where
  nodup := List.nodup_cons.mpr ⟨hfresh, h.nodup⟩
  lt_size := List.forall_mem_cons.mpr ⟨hp, h.lt_size⟩
  path := h.path.cons hfed

/-- What holds of the open and the finished positions at every moment of a search. -/
structure Underway (w : Wiring) (trail finished : List ℕ) : Prop where
  isTrail : w.IsTrail trail
  settled : w.Settled finished
  disjoint : ∀ p ∈ trail, p ∉ finished

/-- Opening a position that the last open one feeds. -/
theorem Underway.push {w : Wiring} {trail finished : List ℕ} {p : ℕ}
    (h : w.Underway trail finished) (hp : p < w.size) (hfed : ∀ t ∈ trail.head?, w.Feeds t p)
    (hfinished : p ∉ finished) (htrail : p ∉ trail) : w.Underway (p :: trail) finished where
  isTrail := h.isTrail.push hp hfed htrail
  settled := h.settled
  disjoint := List.forall_mem_cons.mpr ⟨hfinished, h.disjoint⟩

/-- Finishing the position opened last, all of whose targets are finished. -/
theorem Underway.pop {w : Wiring} {trail finished : List ℕ} {p : ℕ}
    (h : w.Underway (p :: trail) finished) (hfeeds : ∀ q, w.Feeds p q → q ∈ finished) :
    w.Underway trail (p :: finished) where
  isTrail :=
    { nodup := (List.nodup_cons.mp h.isTrail.nodup).2
      lt_size := fun q hq => h.isTrail.lt_size q (List.mem_cons_of_mem _ hq)
      path := h.isTrail.path.tail }
  settled := ⟨h.disjoint p List.mem_cons_self, hfeeds, h.settled⟩
  disjoint := by
    intro q hq hmem
    rcases List.mem_cons.mp hmem with rfl | hmem
    · exact (List.nodup_cons.mp h.isTrail.nodup).1 hq
    · exact h.disjoint q (List.mem_cons_of_mem _ hq) hmem

/-! ## What a search answers -/

/-- What is known of the answer of a search: either a position on a cycle, or finished positions
that include those finished before and all that were to be visited. -/
def Answered (w : Wiring) (trail finished next : List ℕ) : Except ℕ (List ℕ) → Prop
  | .ok result => w.Underway trail result ∧ finished ⊆ result ∧ next ⊆ result
  | .error p => TransGen w.Feeds p p

/-- What a search answers for the rest of the list, it answers for the list with a position in
front that is finished by then. -/
theorem Answered.cons {w : Wiring} {trail finished finished' next : List ℕ} {p : ℕ}
    {answer : Except ℕ (List ℕ)} (h : w.Answered trail finished' next answer)
    (hsub : finished ⊆ finished') (hp : p ∈ finished') :
    w.Answered trail finished (p :: next) answer := by
  cases answer with
  | error q => exact h
  | ok result =>
    obtain ⟨hunder, hkept, hvisited⟩ := h
    exact ⟨hunder, List.Subset.trans hsub hkept, List.cons_subset.mpr ⟨hkept hp, hvisited⟩⟩

/-- A search with fuel for every position that is not open yet answers as it should. -/
theorem search_answered {w : Wiring} (hrange : w.InRange) (fuel : ℕ) (trail finished next : List ℕ)
    (h : w.Underway trail finished) (hfuel : w.size < fuel + trail.length)
    (hnext : ∀ p ∈ next, p < w.size ∧ ∀ t ∈ trail.head?, w.Feeds t p) :
    w.Answered trail finished next (w.search fuel trail finished next) := by
  -- opening a position takes fuel, passing to the next one does not: hence two inductions
  induction fuel generalizing trail finished next with
  | zero =>
    -- the trail would be longer than there are positions
    have hlen := h.isTrail.length_le
    omega
  | succ fuel ihFuel =>
    induction next generalizing finished with
    | nil => exact ⟨h, List.Subset.refl _, List.nil_subset _⟩
    | cons p next ihNext =>
      obtain ⟨hp, hfed⟩ := hnext p List.mem_cons_self
      have hnext' : ∀ q ∈ next, q < w.size ∧ ∀ t ∈ trail.head?, w.Feeds t q :=
        fun q hq => hnext q (List.mem_cons_of_mem _ hq)
      by_cases hfinished : p ∈ finished
      · rw [search_cons_finished w fuel trail next hfinished]
        exact (ihNext finished h hnext').cons (List.Subset.refl _) hfinished
      by_cases htrail : p ∈ trail
      · rw [search_cons_open w fuel next hfinished htrail]
        -- the trail leads from `p` to the position opened last, which feeds `p`
        cases trail with
        | nil => exact absurd htrail List.not_mem_nil
        | cons t rest =>
          exact TransGen.tail' (reflTransGen_head_of_path h.isTrail.path htrail) (hfed t rfl)
      · rw [search_cons_fresh w fuel next hfinished htrail]
        have hbelow := ihFuel (p :: trail) finished (w.feeds p).reverse
          (h.push hp hfed hfinished htrail) (by rw [List.length_cons]; omega) (by
            intro q hq
            have hpq : w.Feeds p q := List.mem_reverse.mp hq
            refine ⟨hrange p q hpq, fun t ht => ?_⟩
            obtain rfl : p = t := by simpa using ht
            exact hpq)
        cases hout : w.search fuel (p :: trail) finished (w.feeds p).reverse with
        | error q => rw [hout] at hbelow; exact hbelow
        | ok below =>
          rw [hout] at hbelow
          obtain ⟨hunder, hsub, hvisited⟩ := hbelow
          have hpop := hunder.pop fun q hq => hvisited (List.mem_reverse.mpr hq)
          exact (ihNext (p :: below) hpop hnext').cons (List.subset_cons_of_subset p hsub)
            List.mem_cons_self

/-- The search from every position answers as it should. -/
theorem search_all_answered {w : Wiring} (hrange : w.InRange) :
    w.Answered [] [] (List.range w.size) (w.search (w.size + 1) [] [] (List.range w.size)) := by
  refine search_answered hrange _ [] [] _ ?_ (by simp) fun p hp => ⟨List.mem_range.mp hp, by simp⟩
  exact ⟨⟨List.nodup_nil, by simp, .nil⟩, trivial, by simp⟩

/-- What the search names lies on a cycle. -/
theorem transGen_of_cycle? {w : Wiring} (hrange : w.InRange) {p : ℕ} (h : w.cycle? = some p) :
    TransGen w.Feeds p p := by
  have hanswer := search_all_answered hrange
  unfold cycle? at h
  split at h
  · exact absurd h (by simp)
  · rename_i q hout
    rw [hout] at hanswer
    rw [← Option.some.inj h]
    exact hanswer

/-- Where the search names nothing, there is no cycle. -/
theorem acyclic_of_cycle?_eq_none {w : Wiring} (hrange : w.InRange) (h : w.cycle? = none) :
    w.Acyclic := by
  have hanswer := search_all_answered hrange
  unfold cycle? at h
  split at h
  · rename_i result hout
    rw [hout] at hanswer
    obtain ⟨hunder, -, hvisited⟩ := hanswer
    intro p hcycle
    -- a position on a cycle is fed, so it is in range and has been visited
    obtain ⟨q, -, hqp⟩ := TransGen.tail'_iff.mp hcycle
    have hp : p ∈ List.range w.size := List.mem_range.mpr (hrange q p hqp)
    exact hunder.settled.not_transGen_self (hvisited hp) hcycle
  · exact absurd h (by simp)

end Patchbay.Wiring
