import Mathlib.Logic.Function.Basic
import Patchbay.Proofs.Wiring.Placement

/-!
# Wirings in tables

A wiring is found with tables: the ends of the connections are marked, the marked nodes are numbered
in a table of positions that holds nothing for the others, and every connection is entered under
the positions of its ends.  Here each table is read and changed only where it has an entry, and a
position is taken from the table of positions only where it holds one; `Graph.wiring?` fails
otherwise.  It never does, and what it finds is `Graph.wiring` (`Graph.wiring?_eq`).

A table is described by a function on its indices (`table`), a change to it by a change to the
function (`change?_table`), and a pass over a list by the pass over functions (`foldlM_encoded`).
-/

namespace Patchbay

variable {α β σ τ : Type}

/-! ## Tables -/

/-- The table of a function on the indices below a bound. -/
def table (n : ℕ) (f : ℕ → α) : List α := (List.range n).map f

/-- A table with one entry changed, if it has the entry. -/
def change? (entries : List α) (i : ℕ) (change : α → α) : Option (List α) :=
  entries[i]?.map fun a => entries.set i (change a)

/-- The elements that pass a test that may fail to answer. -/
def filter? (test : α → Option Bool) : List α → Option (List α)
  | [] => some []
  | a :: rest => do
    let pass ← test a
    let others ← filter? test rest
    some (if pass then a :: others else others)

@[simp] theorem length_table (n : ℕ) (f : ℕ → α) : (table n f).length = n := by
  rw [table, List.length_map, List.length_range]

/-- The entry of a table at an index is the value of its function. -/
theorem getElem?_table {n i : ℕ} (h : i < n) (f : ℕ → α) : (table n f)[i]? = some (f i) := by
  rw [table, List.getElem?_map, List.getElem?_range h, Option.map_some]

/-- A table depends on its function below the bound alone. -/
theorem table_congr {n : ℕ} {f f' : ℕ → α} (h : ∀ i < n, f i = f' i) : table n f = table n f' :=
  List.map_congr_left fun i hi => h i (List.mem_range.mp hi)

/-- A table with one value everywhere. -/
theorem replicate_eq_table (n : ℕ) (a : α) : List.replicate n a = table n fun _ => a := by
  rw [table, List.map_const', List.length_range]

/-- A change to an entry is a change to the function. -/
theorem change?_table {n i : ℕ} (h : i < n) (f : ℕ → α) (change : α → α) :
    change? (table n f) i change = some (table n (Function.update f i (change (f i)))) := by
  rw [change?, getElem?_table h, Option.map_some]
  congr 1
  refine List.ext_getElem (by simp) fun k hk hk' => ?_
  simp only [table, List.getElem_set, List.getElem_map, List.getElem_range]
  by_cases hki : i = k
  · rw [if_pos hki, ← hki, Function.update_self]
  · rw [if_neg hki, Function.update_of_ne (Ne.symm hki)]

/-- A filter whose test always answers is a filter. -/
theorem filter?_eq {test : α → Option Bool} {pass : α → Bool} {l : List α}
    (h : ∀ a ∈ l, test a = some (pass a)) : filter? test l = some (l.filter pass) := by
  induction l with
  | nil => rfl
  | cons a l ih =>
    obtain ⟨ha, hl⟩ := List.forall_mem_cons.mp h
    rw [filter?, ha, ih hl, List.filter_cons]
    rfl

/-- A pass that may fail is a pass that does not, if its steps are steps on what the states stand
for. -/
theorem foldlM_encoded (encode : σ → τ) (step? : τ → β → Option τ) (step : σ → β → σ) {l : List β}
    (h : ∀ s, ∀ b ∈ l, step? (encode s) b = some (encode (step s b))) (s : σ) :
    l.foldlM step? (encode s) = some (encode (l.foldl step s)) := by
  induction l generalizing s with
  | nil => rfl
  | cons b l ih =>
    rw [List.foldlM_cons, h s b List.mem_cons_self]
    exact ih (fun s b hb => h s b (List.mem_cons_of_mem _ hb)) _

/-! ## The tables of a wiring -/

namespace Graph

/-- Marks the ends of a connection. -/
def mark? (marks : List Bool) (l : ℕ × ℕ) : Option (List Bool) := do
  change? (← change? marks l.1 fun _ => true) l.2 fun _ => true

/-- The marks of the nodes at an end of a connection that counts. -/
def marks? (g : Graph) : Option (List Bool) :=
  g.links.foldlM mark? (List.replicate g.nodes.length false)

/-- Gives a kept node its position. -/
def number? (positions : List (Option ℕ)) (e : ℕ × ℕ) : Option (List (Option ℕ)) :=
  change? positions e.1 fun _ => some e.2

/-- The position of each kept node, in a table with an entry for every node. -/
def positions? (g : Graph) (kept : List ℕ) : Option (List (Option ℕ)) :=
  kept.zipIdx.foldlM number? (List.replicate g.nodes.length none)

/-- Enters a connection under the positions of its ends. -/
def enter? (positions : List (Option ℕ)) (tables : List (List ℕ) × List ℕ) (l : ℕ × ℕ) :
    Option (List (List ℕ) × List ℕ) := do
  let source ← positions[l.1]?.join
  let target ← positions[l.2]?.join
  some (← change? tables.1 source (· ++ [target]), ← change? tables.2 target (· + 1))

/-- The connected part of a patch, with every table read and changed only where it has an entry. -/
def wiring? (g : Graph) : Option Wiring := do
  let marks ← g.marks?
  let kept ← filter? (marks[·]?) (List.range g.nodes.length)
  let positions ← g.positions? kept
  let (outgoing, incoming) ← g.links.foldlM (enter? positions)
    (List.replicate kept.length [], List.replicate kept.length 0)
  some ⟨g, kept, outgoing, incoming⟩

variable {g : Graph}

/-! ## Marks -/

/-- The ends of a connection that counts are indices of nodes. -/
theorem lt_of_mem_links {l : ℕ × ℕ} (h : l ∈ g.links) :
    l.1 < g.nodes.length ∧ l.2 < g.nodes.length := by
  rw [links_eq_map_counted] at h
  obtain ⟨c, hc, rfl⟩ := List.mem_map.mp h
  obtain ⟨-, hsource, htarget⟩ := mem_counted.mp hc
  have hlength : g.ids.length = g.nodes.length := List.length_map ..
  rw [← hlength]
  exact ⟨List.idxOf_lt_length_of_mem hsource, List.idxOf_lt_length_of_mem htarget⟩

/-- A node is connected if it is at an end of a connection that counts. -/
theorem mem_connected {i : ℕ} : i ∈ g.connected ↔ ∃ l ∈ g.links, l.1 = i ∨ l.2 = i := by
  simp only [connected, List.mem_filter, List.mem_range, List.any_eq_true, Bool.or_eq_true,
    beq_iff_eq]
  refine and_iff_right_of_imp fun h => ?_
  obtain ⟨l, hl, hi⟩ := h
  obtain ⟨hsource, htarget⟩ := lt_of_mem_links hl
  rcases hi with rfl | rfl
  · exact hsource
  · exact htarget

/-- What is connected is the index of a node. -/
theorem lt_of_mem_connected {i : ℕ} (h : i ∈ g.connected) : i < g.nodes.length :=
  List.mem_range.mp (List.mem_of_mem_filter h)

/-- The connected nodes are in the order of the patch. -/
theorem pairwise_connected (g : Graph) : g.connected.Pairwise (· < ·) :=
  List.pairwise_lt_range.filter _

/-- The marks, as a function. -/
def mark (f : ℕ → Bool) (l : ℕ × ℕ) : ℕ → Bool :=
  Function.update (Function.update f l.1 true) l.2 true

/-- After a pass, what was marked before and the ends of the connections are marked. -/
theorem foldl_mark (links : List (ℕ × ℕ)) (f : ℕ → Bool) (i : ℕ) :
    links.foldl mark f i = (f i || links.any fun l => l.1 == i || l.2 == i) := by
  induction links generalizing f with
  | nil => simp
  | cons l links ih =>
    have hmark : mark f l i = (f i || (l.1 == i || l.2 == i)) := by
      simp only [mark, Function.update_apply, eq_comm (a := i)]
      by_cases htarget : l.2 = i <;> by_cases hsource : l.1 = i <;> simp [htarget, hsource]
    rw [List.foldl_cons, ih, hmark, List.any_cons, Bool.or_assoc]

/-- A node is marked if a connection has it at an end. -/
theorem marks?_eq (g : Graph) :
    g.marks? = some (table g.nodes.length fun i => g.links.any fun l => l.1 == i || l.2 == i) := by
  have hpass := foldlM_encoded (table g.nodes.length) mark? mark (l := g.links) (fun f l hl => by
    obtain ⟨hsource, htarget⟩ := lt_of_mem_links hl
    simp only [mark?, change?_table hsource, Option.bind_eq_bind, Option.bind_some,
      change?_table htarget]
    rfl) fun _ => false
  rw [marks?, replicate_eq_table, hpass]
  exact congrArg some (table_congr fun i _ => by rw [foldl_mark, Bool.false_or])

/-! ## Positions -/

/-- The positions, as a function. -/
def number (f : ℕ → Option ℕ) (e : ℕ × ℕ) : ℕ → Option ℕ := Function.update f e.1 (some e.2)

/-- After a pass, the kept nodes have their places and the others what they had before. -/
theorem foldl_number {kept : List ℕ} (hnodup : kept.Nodup) (first : ℕ) (f : ℕ → Option ℕ) (i : ℕ) :
    (kept.zipIdx first).foldl number f i
      = if i ∈ kept then some (kept.idxOf i + first) else f i := by
  induction kept generalizing first f with
  | nil => rfl
  | cons a kept ih =>
    obtain ⟨hfresh, hkept⟩ := List.nodup_cons.mp hnodup
    rw [List.zipIdx_cons, List.foldl_cons, ih hkept]
    -- the first kept node is numbered now, and not again as it is kept once
    by_cases hi : i = a
    · subst hi
      simp [hfresh, number]
    · have hother : number f (a, first) i = f i := Function.update_of_ne hi _ _
      rw [hother, List.idxOf_cons_ne _ (Ne.symm hi)]
      by_cases hmem : i ∈ kept
      · rw [if_pos hmem, if_pos (List.mem_cons_of_mem _ hmem)]
        exact congrArg some (by omega)
      · rw [if_neg hmem, if_neg (by simp [hi, hmem])]

/-- A node is numbered if it is kept. -/
theorem positions?_eq (g : Graph) {kept : List ℕ} (hlt : ∀ i ∈ kept, i < g.nodes.length)
    (hnodup : kept.Nodup) :
    g.positions? kept
      = some (table g.nodes.length fun i => if i ∈ kept then some (kept.idxOf i) else none) := by
  have hpass := foldlM_encoded (table g.nodes.length) number? number (l := kept.zipIdx)
    (fun f e he => change?_table (hlt _ (List.fst_mem_of_mem_zipIdx he)) _ _) fun _ => none
  rw [positions?, replicate_eq_table, hpass]
  exact congrArg some (table_congr fun i _ => by rw [foldl_number hnodup, Nat.add_zero])

/-! ## Connections -/

/-- The connections that count, by the positions of their ends. -/
def positionLinks (g : Graph) : List (ℕ × ℕ) :=
  g.links.map fun l => (g.connected.idxOf l.1, g.connected.idxOf l.2)

/-- The ends of a connection that counts have positions. -/
theorem lt_of_mem_positionLinks {l : ℕ × ℕ} (h : l ∈ g.positionLinks) :
    l.1 < g.connected.length ∧ l.2 < g.connected.length := by
  obtain ⟨k, hk, rfl⟩ := List.mem_map.mp h
  exact ⟨List.idxOf_lt_length_of_mem (mem_connected.mpr ⟨k, hk, .inl rfl⟩),
    List.idxOf_lt_length_of_mem (mem_connected.mpr ⟨k, hk, .inr rfl⟩)⟩

/-- The two tables of connections, as functions. -/
def enter (s : (ℕ → List ℕ) × (ℕ → ℕ)) (l : ℕ × ℕ) : (ℕ → List ℕ) × (ℕ → ℕ) :=
  (Function.update s.1 l.1 (s.1 l.1 ++ [l.2]), Function.update s.2 l.2 (s.2 l.2 + 1))

/-- After a pass, the connections are entered behind what was there, each under its own ends. -/
theorem foldl_enter (links : List (ℕ × ℕ)) (s : (ℕ → List ℕ) × (ℕ → ℕ)) (p : ℕ) :
    (links.foldl enter s).1 p = s.1 p ++ (links.filter (·.1 == p)).map (·.2) ∧
      (links.foldl enter s).2 p = s.2 p + links.countP (·.2 == p) := by
  induction links generalizing s with
  | nil => simp
  | cons l links ih =>
    obtain ⟨houtgoing, hincoming⟩ := ih (enter s l)
    rw [List.foldl_cons, houtgoing, hincoming]
    constructor
    · by_cases hp : l.1 = p
      · subst hp
        simp [enter]
      · simp [enter, hp, Function.update_of_ne (Ne.symm hp)]
    · by_cases hp : l.2 = p
      · subst hp
        simp only [enter, Function.update_self, List.countP_cons, beq_self_eq_true, if_true]
        omega
      · simp [enter, hp, Function.update_of_ne (Ne.symm hp)]

/-- The ends of each connection have positions, under which it is entered. -/
theorem foldlM_enter? (g : Graph) {positions : List (Option ℕ)}
    (hpositions : g.positions? g.connected = some positions) :
    g.links.foldlM (enter? positions)
        (List.replicate g.connected.length [], List.replicate g.connected.length 0)
      = some (g.wiring.outgoing, g.wiring.incoming) := by
  -- an entry that holds no position stands for a node that is not connected, and no connection
  -- that counts has such an end
  have hread {i : ℕ} (hi : i ∈ g.connected) : positions[i]?.join = some (g.connected.idxOf i) := by
    rw [positions?_eq g (fun i => lt_of_mem_connected)
      ((pairwise_connected g).imp Nat.ne_of_lt)] at hpositions
    rw [← Option.some.inj hpositions, getElem?_table (lt_of_mem_connected hi), if_pos hi]
    rfl
  have hpass := foldlM_encoded
    (fun s : (ℕ → List ℕ) × (ℕ → ℕ) =>
      (table g.connected.length s.1, table g.connected.length s.2))
    (enter? positions) (fun s l => enter s (g.connected.idxOf l.1, g.connected.idxOf l.2))
    (l := g.links) (fun s l hl => by
      have hsource := mem_connected.mpr ⟨l, hl, .inl rfl⟩
      have htarget := mem_connected.mpr ⟨l, hl, .inr rfl⟩
      simp only [enter?, hread hsource, hread htarget, Option.bind_eq_bind, Option.bind_some,
        change?_table (List.idxOf_lt_length_of_mem hsource),
        change?_table (List.idxOf_lt_length_of_mem htarget), enter])
    (fun _ => [], fun _ => 0)
  have hmap : g.links.foldl (fun s l => enter s (g.connected.idxOf l.1, g.connected.idxOf l.2))
      (fun _ => [], fun _ => 0) = g.positionLinks.foldl enter (fun _ => [], fun _ => 0) := by
    rw [positionLinks, List.foldl_map]
  rw [replicate_eq_table, replicate_eq_table, hpass, hmap]
  refine congrArg some (Prod.ext ?_ ?_)
  · refine table_congr fun p _ => ?_
    rw [(foldl_enter ..).1, List.nil_append]
    rfl
  · refine table_congr fun p _ => ?_
    rw [(foldl_enter ..).2, Nat.zero_add]
    rfl

/-- **No table is read where it has no entry.**  The tables find the wiring. -/
theorem wiring?_eq (g : Graph) : g.wiring? = some g.wiring := by
  -- the table of marks has an entry for every node that is asked for
  have hkept : filter? ((table g.nodes.length fun i =>
      g.links.any fun l => l.1 == i || l.2 == i)[·]?) (List.range g.nodes.length)
        = some g.connected :=
    filter?_eq fun i hi => getElem?_table (List.mem_range.mp hi) _
  have hpositions := positions?_eq g (fun i => lt_of_mem_connected)
    ((pairwise_connected g).imp Nat.ne_of_lt)
  simp only [wiring?, marks?_eq, hkept, hpositions, foldlM_enter? g hpositions,
    Option.bind_eq_bind, Option.bind_some]
  rfl

end Graph

end Patchbay
