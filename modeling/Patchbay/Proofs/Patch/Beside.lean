import Patchbay.Proofs.Chain.Names
import Patchbay.Proofs.Compile

/-!
# Patches beside each other

Two patches on one canvas that share no id and have no connection between them do not disturb each
other: `compile_beside` says what each result of the two together is in terms of the results of
each.

## Shape of the proof

* by ids, everything that is read from both together is read from one of them: `counted_beside`,
  `targetIds_beside`, `inputCount_beside`, `nodeOf?_beside`, and each is empty for an id that is not
  in a patch;
* no path leads from one to the other (`cyclic_beside_iff`);
* the covers of both, one after the other, are a greedy cover of the two together
  (`greedyCover_beside`), and so the only one;
* along it the two together are drawn as each is drawn (`outcome_drawn_beside`,
  `record_drawn_beside`).
-/

open Relation

namespace Patchbay

namespace Graph

/-- Two patches as one, the nodes and connections of the first before those of the second. -/
def beside (g₁ g₂ : Graph) : Graph where
  nodes := g₁.nodes ++ g₂.nodes
  connections := g₁.connections ++ g₂.connections

/-- No id is that of a node of both patches, and no connection of one names a node of the other. -/
structure Apart (g₁ g₂ : Graph) : Prop where
  ids : ∀ id ∈ g₁.ids, id ∉ g₂.ids
  left : ∀ c ∈ g₁.connections, c.source ∉ g₂.ids ∧ c.target ∉ g₂.ids
  right : ∀ c ∈ g₂.connections, c.source ∉ g₁.ids ∧ c.target ∉ g₁.ids

variable {g₁ g₂ : Graph}

/-! ## Both together by ids -/

theorem ids_beside : (g₁.beside g₂).ids = g₁.ids ++ g₂.ids := List.map_append

/-- A node of either patch is found under its id. -/
theorem nodeOf?_beside (id : String) :
    (g₁.beside g₂).nodeOf? id = (g₁.nodeOf? id).or (g₂.nodeOf? id) := List.find?_append

/-- Two lists of parts, put together part by part, have the entries of both. -/
theorem perm_append_append {α : Type} {a₁ a₂ b b₁ b₂ : List α} (h : b.Perm (b₁ ++ b₂)) :
    (a₁ ++ a₂ ++ b).Perm (a₁ ++ b₁ ++ (a₂ ++ b₂)) := by
  calc a₁ ++ a₂ ++ b
    _ = a₁ ++ (a₂ ++ b) := List.append_assoc ..
    List.Perm _ (a₁ ++ (a₂ ++ (b₁ ++ b₂))) := (h.append_left a₂).append_left a₁
    List.Perm _ (a₁ ++ (b₁ ++ (a₂ ++ b₂))) := (List.perm_append_comm_assoc a₂ b₁ b₂).append_left a₁
    _ = a₁ ++ b₁ ++ (a₂ ++ b₂) := (List.append_assoc ..).symm

/-- No connection that counts ends at an id that is not in the patch. -/
theorem any_counted_eq_false {g : Graph} {id : String} (hid : id ∉ g.ids) {p : Connection → Bool}
    (hp : ∀ c, p c → c.source = id ∨ c.target = id) : g.counted.any p = false := by
  refine List.any_eq_false.mpr fun c hc hend => hid ?_
  rcases hp c hend with rfl | rfl
  · exact (mem_counted.mp hc).2.1
  · exact (mem_counted.mp hc).2.2

namespace Apart

variable (h : Apart g₁ g₂)
include h

/-- Ids are distinct together if they are in each patch. -/
theorem nodup_beside_iff : (g₁.beside g₂).ids.Nodup ↔ g₁.ids.Nodup ∧ g₂.ids.Nodup := by
  rw [ids_beside, List.nodup_append']
  exact ⟨fun ⟨h₁, h₂, _⟩ => ⟨h₁, h₂⟩, fun ⟨h₁, h₂⟩ => ⟨h₁, h₂, fun _ hid => h.ids _ hid⟩⟩

/-- A connection of a patch counts for both together exactly if it counts for the patch. -/
theorem contains_beside :
    (∀ c ∈ g₁.connections,
      ((g₁.beside g₂).ids.contains c.source && (g₁.beside g₂).ids.contains c.target) =
        (g₁.ids.contains c.source && g₁.ids.contains c.target)) ∧
    ∀ c ∈ g₂.connections,
      ((g₁.beside g₂).ids.contains c.source && (g₁.beside g₂).ids.contains c.target) =
        (g₂.ids.contains c.source && g₂.ids.contains c.target) := by
  constructor
  · intro c hc
    obtain ⟨hsource, htarget⟩ := h.left c hc
    simp [ids_beside, hsource, htarget]
  · intro c hc
    obtain ⟨hsource, htarget⟩ := h.right c hc
    simp [ids_beside, hsource, htarget]

theorem counted_beside : (g₁.beside g₂).counted = g₁.counted ++ g₂.counted := by
  obtain ⟨hleft, hright⟩ := h.contains_beside
  rw [counted, beside, List.filter_append]
  exact congrArg₂ _ (List.filter_congr hleft) (List.filter_congr hright)

/-- The connections of each patch that lead nowhere lead nowhere together. -/
theorem dangling_beside : (g₁.beside g₂).dangling = g₁.dangling ++ g₂.dangling := by
  obtain ⟨hleft, hright⟩ := h.contains_beside
  simp only [dangling_eq_filter]
  rw [beside, List.filter_append]
  refine congrArg₂ _ (List.filter_congr fun c hc => ?_) (List.filter_congr fun c hc => ?_)
  · exact congrArg _ (hleft c hc)
  · exact congrArg _ (hright c hc)

theorem targetIds_beside (id : String) :
    (g₁.beside g₂).targetIds id = g₁.targetIds id ++ g₂.targetIds id := by
  rw [targetIds, h.counted_beside, List.filter_append, List.map_append, targetIds, targetIds]

theorem inputCount_beside (id : String) :
    (g₁.beside g₂).inputCount id = g₁.inputCount id + g₂.inputCount id := by
  rw [inputCount, h.counted_beside, List.countP_append, inputCount, inputCount]

/-- Two ids are joined together if they are in either patch. -/
theorem joins_beside_iff {source target : String} :
    (g₁.beside g₂).Joins source target ↔ g₁.Joins source target ∨ g₂.Joins source target := by
  rw [Joins, h.counted_beside, List.mem_append, Joins, Joins]

/-- The kept nodes of a patch are at an end of one of its own connections. -/
theorem keptIds_beside : (g₁.beside g₂).keptIds = g₁.keptIds ++ g₂.keptIds := by
  have hend : ∀ (id : String) (c : Connection), (c.source == id || c.target == id) →
      c.source = id ∨ c.target = id := by simp
  rw [keptIds, ids_beside, h.counted_beside, List.filter_append]
  refine congrArg₂ _ (List.filter_congr fun id hid => ?_) (List.filter_congr fun id hid => ?_)
  · rw [List.any_append, any_counted_eq_false (h.ids id hid) (hend id), Bool.or_false]
  · have hid₁ : id ∉ g₁.ids := fun hid₁ => h.ids id hid₁ hid
    rw [List.any_append, any_counted_eq_false hid₁ (hend id), Bool.false_or]

theorem rootIds_beside : (g₁.beside g₂).rootIds = g₁.rootIds ++ g₂.rootIds := by
  have hend : ∀ (id : String) (c : Connection), c.target == id →
      c.source = id ∨ c.target = id := fun _ _ h => .inr (beq_iff_eq.mp h)
  rw [rootIds, h.keptIds_beside, h.counted_beside, List.filter_append]
  refine congrArg₂ _ (List.filter_congr fun id hid => ?_) (List.filter_congr fun id hid => ?_)
  · have hid₂ : id ∉ g₂.ids := h.ids id (mem_keptIds.mp hid).1
    rw [List.any_append, any_counted_eq_false hid₂ (hend id), Bool.or_false]
  · have hid₁ : id ∉ g₁.ids := fun hid₁ => h.ids id hid₁ (mem_keptIds.mp hid).1
    rw [List.any_append, any_counted_eq_false hid₁ (hend id), Bool.false_or]

/-! ## Paths -/

/-- A path stays in the patch in which it begins. -/
theorem transGen_beside {a b : String} (hpath : TransGen (g₁.beside g₂).Joins a b) :
    TransGen g₁.Joins a b ∨ TransGen g₂.Joins a b := by
  induction hpath with
  | single hab => exact (h.joins_beside_iff.mp hab).imp .single .single
  | @tail b c _ hbc ih =>
    -- the path so far ends in one of the patches, and its end is no node of the other
    have hmem : ∀ {g : Graph}, TransGen g.Joins a b → b ∈ g.ids := fun hab => by
      obtain ⟨_, -, hlast⟩ := TransGen.tail'_iff.mp hab
      exact (mem_counted.mp hlast).2.2
    rcases ih with hab | hab <;> rcases h.joins_beside_iff.mp hbc with hbc | hbc
    · exact .inl (hab.tail hbc)
    · exact absurd (mem_counted.mp hbc).2.1 (h.ids b (hmem hab))
    · exact absurd (hmem hab) (h.ids b (mem_counted.mp hbc).2.1)
    · exact .inr (hab.tail hbc)

/-- There is a cycle together if there is one in either patch. -/
theorem cyclic_beside_iff :
    (∃ id, TransGen (g₁.beside g₂).Joins id id) ↔
      (∃ id, TransGen g₁.Joins id id) ∨ ∃ id, TransGen g₂.Joins id id := by
  constructor
  · rintro ⟨id, hcycle⟩
    exact (h.transGen_beside hcycle).imp (⟨id, ·⟩) (⟨id, ·⟩)
  · rintro (⟨id, hcycle⟩ | ⟨id, hcycle⟩)
    · exact ⟨id, TransGen.mono (fun _ _ hab => h.joins_beside_iff.mpr (.inl hab)) _ _ hcycle⟩
    · exact ⟨id, TransGen.mono (fun _ _ hab => h.joins_beside_iff.mpr (.inr hab)) _ _ hcycle⟩

/-! ## The cover -/

section Cover

variable {cover₁ cover₂ : List (List String)} (h₁ : GreedyCover g₁ cover₁)
  (h₂ : GreedyCover g₂ cover₂)
include h₁

/-- What a node of the first patch feeds is in no list of the second. -/
theorem successor_beside_left {i k : ℕ} {chain : List String} {id : String}
    (hchain : cover₁[i]? = some chain) (hid : chain[k]? = some id) :
    chain[k + 1]? = ((g₁.beside g₂).targetIds id).find?
      fun target => !((cover₁ ++ cover₂).take i).flatten.contains target := by
  have hmem : id ∈ cover₁.flatten :=
    List.mem_flatten_of_mem (List.mem_of_getElem? hchain) (List.mem_of_getElem? hid)
  have hid₂ : id ∉ g₂.ids := h.ids id (mem_keptIds.mp (h₁.kept id hmem)).1
  have hlt := (List.getElem?_eq_some_iff.mp hchain).1
  rw [h.targetIds_beside, targetIds_eq_nil hid₂, List.append_nil,
    List.take_append_of_le_length hlt.le]
  exact h₁.successor i chain hchain k id hid

include h₂

/-- What a node of the second patch feeds is in no list of the first, and all those are before. -/
theorem successor_beside_right {i k : ℕ} {chain : List String} {id : String}
    (hi : cover₁.length ≤ i) (hchain : cover₂[i - cover₁.length]? = some chain)
    (hid : chain[k]? = some id) :
    chain[k + 1]? = ((g₁.beside g₂).targetIds id).find?
      fun target => !((cover₁ ++ cover₂).take i).flatten.contains target := by
  have hmem : id ∈ cover₂.flatten :=
    List.mem_flatten_of_mem (List.mem_of_getElem? hchain) (List.mem_of_getElem? hid)
  have hid₂ : id ∈ g₂.ids := (mem_keptIds.mp (h₂.kept id hmem)).1
  rw [h.targetIds_beside, targetIds_eq_nil fun hid₁ => h.ids id hid₁ hid₂, List.nil_append,
    List.take_append, List.take_of_length_le hi, List.flatten_append,
    h₂.successor (i - cover₁.length) chain hchain k id hid]
  refine List.find?_congr fun target htarget => ?_
  have htarget₂ := (mem_counted.mp (mem_targetIds.mp htarget)).2.2
  have hfresh : target ∉ cover₁.flatten := fun htarget₁ =>
    h.ids target (mem_keptIds.mp (h₁.kept target htarget₁)).1 htarget₂
  simp [hfresh]

/-- The covers of two patches, one after the other, cover both together. -/
theorem greedyCover_beside : GreedyCover (g₁.beside g₂) (cover₁ ++ cover₂) := by
  refine ⟨?heads, ?joined, ?kept, ?nodup, ?successor⟩
  case heads => rw [List.map_append, h₁.heads, h₂.heads, h.rootIds_beside, List.map_append]
  case joined =>
    intro chain hchain
    rcases List.mem_append.mp hchain with hchain | hchain
    · exact (h₁.joined chain hchain).imp fun _ _ hab => h.joins_beside_iff.mpr (.inl hab)
    · exact (h₂.joined chain hchain).imp fun _ _ hab => h.joins_beside_iff.mpr (.inr hab)
  case kept =>
    intro id hid
    rw [List.flatten_append] at hid
    rw [h.keptIds_beside]
    exact List.mem_append.mpr ((List.mem_append.mp hid).imp (h₁.kept id) (h₂.kept id))
  case nodup =>
    rw [List.flatten_append, List.nodup_append']
    refine ⟨h₁.nodup, h₂.nodup, fun id hid hid' => ?_⟩
    exact h.ids id (mem_keptIds.mp (h₁.kept id hid)).1 (mem_keptIds.mp (h₂.kept id hid')).1
  case successor =>
    intro i chain hchain k id hid
    rcases lt_or_ge i cover₁.length with hi | hi
    · rw [List.getElem?_append_left hi] at hchain
      exact h.successor_beside_left h₁ hchain hid
    · rw [List.getElem?_append_right hi] at hchain
      exact h.successor_beside_right h₁ h₂ hi hchain hid

end Cover

/-! ## The drawing -/

section Drawing

variable {cover₁ cover₂ : List (List String)} (h₁ : GreedyCover g₁ cover₁)
  (h₂ : GreedyCover g₂ cover₂) {schema : Schema} {config : Config}

include h₁ in
/-- What is read along the first cover is read from the first patch. -/
theorem agreeOn_left : AgreeOn (g₁.beside g₂) g₁ cover₁.flatten := by
  have hid₂ : ∀ id ∈ cover₁.flatten, id ∉ g₂.ids := fun id hid =>
    h.ids id (mem_keptIds.mp (h₁.kept id hid)).1
  refine ⟨fun id hid => ?_, fun id hid => ?_, fun id hid => ?_⟩
  · rw [branches, h.targetIds_beside, targetIds_eq_nil (hid₂ id hid), List.append_nil, branches]
  · rw [h.inputCount_beside, inputCount_eq_zero (hid₂ id hid), Nat.add_zero]
  · rw [nodeOf?_beside, nodeOf?_eq_none (hid₂ id hid), Option.or_none]

include h₂ in
/-- What is read along the second cover is read from the second patch. -/
theorem agreeOn_right : AgreeOn (g₁.beside g₂) g₂ cover₂.flatten := by
  have hid₁ : ∀ id ∈ cover₂.flatten, id ∉ g₁.ids := fun id hid hid₁ =>
    h.ids id hid₁ (mem_keptIds.mp (h₂.kept id hid)).1
  refine ⟨fun id hid => ?_, fun id hid => ?_, fun id hid => ?_⟩
  · rw [branches, h.targetIds_beside, targetIds_eq_nil (hid₁ id hid), List.nil_append, branches]
  · rw [h.inputCount_beside, inputCount_eq_zero (hid₁ id hid), Nat.zero_add]
  · rw [nodeOf?_beside, nodeOf?_eq_none (hid₁ id hid), Option.none_or]

include h₁ h₂

/-- What is outside of both covers is outside of its own. -/
theorem outside_beside :
    (g₁.beside g₂).outside (cover₁ ++ cover₂) = g₁.outside cover₁ ++ g₂.outside cover₂ := by
  have hkept : ∀ {g : Graph} {id : String}, id ∈ g.keptIds → id ∈ g.ids := fun hid =>
    (mem_keptIds.mp hid).1
  have hnot : ∀ {cover : List (List String)} {id : String}, id ∉ cover.flatten →
      cover.flatten.contains id = false := fun hid => by
    rw [List.contains_eq_mem, decide_eq_false hid]
  rw [outside, h.keptIds_beside, List.filter_append]
  refine congrArg₂ _ (List.filter_congr fun id hid => ?_) (List.filter_congr fun id hid => ?_)
  · have hid₂ : id ∉ cover₂.flatten := fun hid₂ => h.ids id (hkept hid) (hkept (h₂.kept id hid₂))
    rw [List.flatten_append, List.contains_append, hnot hid₂, Bool.or_false]
  · have hid₁ : id ∉ cover₁.flatten := fun hid₁ => h.ids id (hkept (h₁.kept id hid₁)) (hkept hid)
    rw [List.flatten_append, List.contains_append, hnot hid₁, Bool.false_or]

/-- Chains are found along both covers if they are found along each. -/
theorem outcome_drawnAlong_beside {chains : List Chain} :
    ((g₁.beside g₂).drawnAlong schema config (cover₁ ++ cover₂)).outcome = .ok chains ↔
      ∃ chains₁ chains₂, (g₁.drawnAlong schema config cover₁).outcome = .ok chains₁ ∧
        (g₂.drawnAlong schema config cover₂).outcome = .ok chains₂ ∧
        chains = chains₁ ++ chains₂ := by
  have hleft := h.agreeOn_left h₁
  have hright := h.agreeOn_right h₂
  simp only [outcome_drawnAlong_eq_ok, outcome_checkForksAlong_eq_ok, forksAlong_append,
    forksAlong_congr hleft.branches, forksAlong_congr hright.branches, List.append_eq_nil_iff,
    Recorded.outcome_mapM_append_eq_ok, mapM_chainOf_congr hleft.nodeOf?,
    mapM_chainOf_congr hright.nodeOf?]
  constructor
  · rintro ⟨hforks, chains₁, chains₂, hchains₁, hchains₂, rfl⟩
    exact ⟨chains₁, chains₂, ⟨fun hp => (hforks hp).1, hchains₁⟩,
      ⟨fun hp => (hforks hp).2, hchains₂⟩, rfl⟩
  · rintro ⟨chains₁, chains₂, ⟨hforks₁, hchains₁⟩, ⟨hforks₂, hchains₂⟩, rfl⟩
    exact ⟨fun hp => ⟨hforks₁ hp, hforks₂ hp⟩, chains₁, chains₂, hchains₁, hchains₂, rfl⟩

/-- Resolving the chains of both leaves what resolving those of each leaves. -/
theorem record_mapM_chainOf_beside {chains₁ chains₂ : List Chain}
    (hchains₁ : (cover₁.mapM (g₁.chainOf schema config)).outcome = .ok chains₁)
    (hchains₂ : (cover₂.mapM (g₂.chainOf schema config)).outcome = .ok chains₂) :
    ((cover₁ ++ cover₂).mapM ((g₁.beside g₂).chainOf schema config)).record =
      (cover₁.mapM (g₁.chainOf schema config)).record ++
        (cover₂.mapM (g₂.chainOf schema config)).record := by
  rw [← mapM_chainOf_congr (h.agreeOn_left h₁).nodeOf?] at hchains₁ ⊢
  rw [← mapM_chainOf_congr (h.agreeOn_right h₂).nodeOf?] at hchains₂ ⊢
  exact Recorded.record_mapM_append hchains₁ hchains₂

/-- The forks along both covers are those along each. -/
theorem forkReports_beside :
    ((g₁.beside g₂).forksAlong (cover₁ ++ cover₂)).map (g₁.beside g₂).forkReport =
      (g₁.forksAlong cover₁).map g₁.forkReport ++ (g₂.forksAlong cover₂).map g₂.forkReport := by
  rw [forksAlong_append, List.map_append, map_forkReport_congr (h.agreeOn_left h₁).branches,
    map_forkReport_congr (h.agreeOn_right h₂).branches]

end Drawing

variable {schema : Schema} {config : Config}

/-- The inputs that are not merged are those in each patch. -/
theorem unmerged_beside {chains₁ chains₂ : List Chain}
    (h₁ : GreedyCover g₁ (chains₁.map Chain.ids)) (h₂ : GreedyCover g₂ (chains₂.map Chain.ids)) :
    (chains₁ ++ chains₂).flatMap (g₁.beside g₂).unmerged =
      chains₁.flatMap g₁.unmerged ++ chains₂.flatMap g₂.unmerged := by
  have hmem : ∀ {chains : List Chain} {c : Chain} {id : String}, c ∈ chains → id ∈ c.ids →
      id ∈ (chains.map Chain.ids).flatten := fun hc hid =>
    List.mem_flatten_of_mem (List.mem_map_of_mem hc) hid
  rw [List.flatMap_append]
  refine congrArg₂ _ (List.flatMap_congr fun c hc => ?_) (List.flatMap_congr fun c hc => ?_)
  · exact unmerged_congr fun id hid => (h.agreeOn_left h₁).inputCount id (hmem hc hid)
  · exact unmerged_congr fun id hid => (h.agreeOn_right h₂).inputCount id (hmem hc hid)

/-- Without cycles, the chains of both patches are those of each. -/
theorem outcome_drawn_beside_of_acyclic (hids₁ : g₁.ids.Nodup) (hids₂ : g₂.ids.Nodup)
    (hacyclic₁ : ¬ ∃ id, TransGen g₁.Joins id id) (hacyclic₂ : ¬ ∃ id, TransGen g₂.Joins id id)
    {chains : List Chain} :
    ((g₁.beside g₂).drawn schema config).outcome = .ok chains ↔
      ∃ chains₁ chains₂, (g₁.drawn schema config).outcome = .ok chains₁ ∧
        (g₂.drawn schema config).outcome = .ok chains₂ ∧ chains = chains₁ ++ chains₂ := by
  obtain ⟨cover₁, hcover₁⟩ := exists_greedyCover hids₁ hacyclic₁
  obtain ⟨cover₂, hcover₂⟩ := exists_greedyCover hids₂ hacyclic₂
  have hids := h.nodup_beside_iff.mpr ⟨hids₁, hids₂⟩
  have hacyclic := mt h.cyclic_beside_iff.mp (not_or.mpr ⟨hacyclic₁, hacyclic₂⟩)
  rw [drawn_eq_drawnAlong hids hacyclic (h.greedyCover_beside hcover₁ hcover₂),
    drawn_eq_drawnAlong hids₁ hacyclic₁ hcover₁, drawn_eq_drawnAlong hids₂ hacyclic₂ hcover₂]
  exact h.outcome_drawnAlong_beside hcover₁ hcover₂

/-- The chains of both together are those of the first and then those of the second. -/
theorem outcome_drawn_beside {chains : List Chain} :
    ((g₁.beside g₂).drawn schema config).outcome = .ok chains ↔
      ∃ chains₁ chains₂, (g₁.drawn schema config).outcome = .ok chains₁ ∧
        (g₂.drawn schema config).outcome = .ok chains₂ ∧ chains = chains₁ ++ chains₂ := by
  -- on either side the patches have distinct ids and no cycles, so covers to be drawn along
  constructor
  · intro hchains
    obtain ⟨hids, hacyclic, -⟩ := drawn_along_ids hchains
    obtain ⟨hids₁, hids₂⟩ := h.nodup_beside_iff.mp hids
    obtain ⟨hacyclic₁, hacyclic₂⟩ := not_or.mp (mt h.cyclic_beside_iff.mpr hacyclic)
    exact (h.outcome_drawn_beside_of_acyclic hids₁ hids₂ hacyclic₁ hacyclic₂).mp hchains
  · rintro ⟨chains₁, chains₂, hchains₁, hchains₂, hchains⟩
    obtain ⟨hids₁, hacyclic₁, -⟩ := drawn_along_ids hchains₁
    obtain ⟨hids₂, hacyclic₂, -⟩ := drawn_along_ids hchains₂
    exact (h.outcome_drawn_beside_of_acyclic hids₁ hids₂ hacyclic₁ hacyclic₂).mpr
      ⟨_, _, hchains₁, hchains₂, hchains⟩

/-- All that is said of both together is said of one of them. -/
theorem record_drawn_beside {chains₁ chains₂ : List Chain}
    (h₁ : (g₁.drawn schema config).outcome = .ok chains₁)
    (h₂ : (g₂.drawn schema config).outcome = .ok chains₂) :
    ((g₁.beside g₂).drawn schema config).record.Perm
      ((g₁.drawn schema config).record ++ (g₂.drawn schema config).record) := by
  have hchains := h.outcome_drawn_beside.mpr ⟨chains₁, chains₂, h₁, h₂, rfl⟩
  obtain ⟨-, -, hcover₁, hdrawn₁⟩ := drawn_along_ids h₁
  obtain ⟨-, -, hcover₂, hdrawn₂⟩ := drawn_along_ids h₂
  obtain ⟨-, -, -, hdrawn⟩ := drawn_along_ids hchains
  rw [List.map_append] at hdrawn
  rw [hdrawn₁] at h₁ ⊢
  rw [hdrawn₂] at h₂ ⊢
  rw [hdrawn] at hchains ⊢
  rw [record_drawnAlong hchains, record_drawnAlong h₁, record_drawnAlong h₂, h.dangling_beside,
    h.outside_beside hcover₁ hcover₂, h.unmerged_beside hcover₁ hcover₂,
    h.forkReports_beside hcover₁ hcover₂,
    h.record_mapM_chainOf_beside hcover₁ hcover₂ (outcome_drawnAlong_eq_ok.mp h₁).2
      (outcome_drawnAlong_eq_ok.mp h₂).2,
    List.map_append, List.map_append]
  -- part by part, what is said of the second patch moves behind all that is said of the first
  exact perm_append_append (perm_append_append (perm_append_append (perm_append_append .rfl)))

end Apart

end Graph

/-! ## The results -/

/-- An expression has a text. -/
theorem Pattern.render_ne_empty (p : Pattern) : p.render ≠ "" := by
  rw [render, Ne, String.ofList_eq_empty_iff]
  cases p <;> simp [chars]

/-- Expressions have a text. -/
theorem Pattern.line_ne_empty {patterns : List Pattern} (h : patterns ≠ []) :
    line patterns ≠ "" := by
  obtain ⟨p, rest, rfl⟩ := List.exists_cons_of_ne_nil h
  cases rest with
  | nil => simpa [line] using p.render_ne_empty
  | cons q rest => simp [line, p.render_ne_empty]

/-- Code in two parts has a space between them, unless one of them is empty. -/
theorem Pattern.code_append (a b : List Arrangement) :
    code (a ++ b) = " ".intercalate ([code a, code b].filter (· ≠ "")) := by
  have hnil : line [] = "" := String.intercalate_nil
  rw [code, List.filterMap_append, code, code]
  by_cases ha : a.filterMap ofArrangement? = []
  · by_cases hb : b.filterMap ofArrangement? = []
    · simp [ha, hb, hnil]
    · simp [ha, hnil, line_ne_empty hb]
  · by_cases hb : b.filterMap ofArrangement? = []
    · simp [hb, hnil, line_ne_empty ha]
    · have hline : line (a.filterMap ofArrangement? ++ b.filterMap ofArrangement?) =
          line (a.filterMap ofArrangement?) ++ " " ++ line (b.filterMap ofArrangement?) := by
        rw [line, List.map_append]
        exact String.intercalate_append_of_ne_nil (mt List.map_eq_nil_iff.mp ha)
          (mt List.map_eq_nil_iff.mp hb)
      simp [hline, line_ne_empty ha, line_ne_empty hb]

/-- A result put together from those for two patches, in their order. -/
structure Compiled.Joined (c₁ c₂ c : Compiled) : Prop where
  code : c.code = " ".intercalate ([c₁.code, c₂.code].filter (· ≠ ""))
  chains : c.chains = c₁.chains ++ c₂.chains
  inputChains : c.inputChains = c₁.inputChains + c₂.inputChains
  rulesApplied : c.rulesApplied =
    c₁.rulesApplied ++ c₂.rulesApplied.filter (!c₁.rulesApplied.contains ·)
  diagnostics : c.diagnostics.Perm (c₁.diagnostics ++ c₂.diagnostics)

namespace Graph

section Compile

variable {g₁ g₂ : Graph} (h : Apart g₁ g₂) {schema : Schema} {config : Config}
include h

/-- If two patches compile together, each of them compiles. -/
theorem compile_of_beside {c : Compiled} (hc : (g₁.beside g₂).compile schema config = .ok c) :
    (∃ c₁, g₁.compile schema config = .ok c₁) ∧ ∃ c₂, g₂.compile schema config = .ok c₂ := by
  obtain ⟨chains, arrangements, hdrawn, hfolded, -⟩ := compile_eq_ok_iff.mp hc
  obtain ⟨chains₁, chains₂, hdrawn₁, hdrawn₂, rfl⟩ := h.outcome_drawn_beside.mp hdrawn
  obtain ⟨a₁, a₂, hfolded₁, hfolded₂, -⟩ := Recorded.outcome_mapM_append_eq_ok.mp hfolded
  exact ⟨⟨_, compile_eq_ok_iff.mpr ⟨chains₁, a₁, hdrawn₁, hfolded₁, rfl⟩⟩,
    ⟨_, compile_eq_ok_iff.mpr ⟨chains₂, a₂, hdrawn₂, hfolded₂, rfl⟩⟩⟩

/-- If each of two patches compiles, they compile together to what is put together from both. -/
theorem exists_joined {c₁ c₂ : Compiled} (hc₁ : g₁.compile schema config = .ok c₁)
    (hc₂ : g₂.compile schema config = .ok c₂) :
    ∃ c, (g₁.beside g₂).compile schema config = .ok c ∧ c₁.Joined c₂ c := by
  obtain ⟨chains₁, a₁, hdrawn₁, hfolded₁, rfl⟩ := compile_eq_ok_iff.mp hc₁
  obtain ⟨chains₂, a₂, hdrawn₂, hfolded₂, rfl⟩ := compile_eq_ok_iff.mp hc₂
  have hdrawn := h.outcome_drawn_beside.mpr ⟨chains₁, chains₂, hdrawn₁, hdrawn₂, rfl⟩
  have hfolded := Recorded.outcome_mapM_append_eq_ok.mpr ⟨a₁, a₂, hfolded₁, hfolded₂, rfl⟩
  refine ⟨_, compile_eq_ok_iff.mpr ⟨_, _, hdrawn, hfolded, rfl⟩, Pattern.code_append a₁ a₂, rfl,
    List.length_append, ?rules, h.record_drawn_beside hdrawn₁ hdrawn₂⟩
  case rules =>
    show firstMeetings (folded config (chains₁ ++ chains₂)).record = _
    rw [folded, Recorded.record_mapM_append hfolded₁ hfolded₂, firstMeetings_append]
    rfl

end Compile

/-- **Independent patches compile independently.**  Two patches that are apart compile together
exactly if each of them compiles, and the result is put together from both. -/
theorem compile_beside {g₁ g₂ : Graph} (h : Apart g₁ g₂) (schema : Schema) (config : Config) :
    ((∃ c, (g₁.beside g₂).compile schema config = .ok c) ↔
      (∃ c₁, g₁.compile schema config = .ok c₁) ∧ ∃ c₂, g₂.compile schema config = .ok c₂) ∧
    ∀ c c₁ c₂, (g₁.beside g₂).compile schema config = .ok c →
      g₁.compile schema config = .ok c₁ → g₂.compile schema config = .ok c₂ →
      c₁.Joined c₂ c := by
  refine ⟨⟨?together, ?apart⟩, ?joined⟩
  case together =>
    rintro ⟨c, hc⟩
    exact compile_of_beside h hc
  case apart =>
    rintro ⟨⟨c₁, hc₁⟩, ⟨c₂, hc₂⟩⟩
    obtain ⟨c, hc, -⟩ := exists_joined h hc₁ hc₂
    exact ⟨c, hc⟩
  case joined =>
    intro c c₁ c₂ hc hc₁ hc₂
    obtain ⟨c', hc', hjoined⟩ := exists_joined h hc₁ hc₂
    obtain rfl := Except.ok.inj (hc.symm.trans hc')
    exact hjoined

/-- A fork with two gains, of which the second is stranded, and a connection into nothing. -/
def drumPatch : Graph where
  nodes := [
    ({ id := "kick", type := "drums" } : Node).setProperty "s" (.text "bd"),
    ({ id := "loud", type := "gain" } : Node).setProperty "gain" (.integer 3),
    ({ id := "side", type := "gain" } : Node).setProperty "gain" (.integer 2)]
  connections := [⟨"kick", "loud"⟩, ⟨"kick", "side"⟩, ⟨"side", "ghost"⟩]

/-- A gain and a panning, of types that are not in the schema, and a connection into nothing. -/
def leadPatch : Graph where
  nodes := [
    { id := "lead", type := "voice" },
    ({ id := "soft", type := "fader" } : Node).setProperty "gain" (.integer 2),
    ({ id := "left", type := "panner" } : Node).setProperty "pan" (.integer 5)]
  connections := [⟨"lead", "soft"⟩, ⟨"soft", "left"⟩, ⟨"left", "out"⟩]

/-- The two patches share no id and no connection. -/
theorem apart_drumPatch_leadPatch : Apart drumPatch leadPatch where
  ids := by decide
  left := by decide
  right := by decide

/-- Each of two patches has diagnostics of its own, and a rule is applied in both. -/
theorem compile_beside_drumPatch_leadPatch :
    Apart drumPatch leadPatch ∧
      ∃ c c₁ c₂, (drumPatch.beside leadPatch).compile wrappedSchema .standard = .ok c ∧
        drumPatch.compile wrappedSchema .standard = .ok c₁ ∧
        leadPatch.compile wrappedSchema .standard = .ok c₂ ∧
        c₁.diagnostics.length = 3 ∧ c₂.diagnostics.length = 5 ∧
        c₁.rulesApplied = ["gain"] ∧ c₂.rulesApplied = ["gain", "pan"] ∧
        c₁.Joined c₂ c := by
  have hjoined := (compile_beside apart_drumPatch_leadPatch wrappedSchema .standard).2
  exact ⟨apart_drumPatch_leadPatch, _, _, _, rfl, rfl, rfl, by decide, by decide, by decide,
    by decide, hjoined _ _ _ rfl rfl rfl⟩

end Graph

end Patchbay
