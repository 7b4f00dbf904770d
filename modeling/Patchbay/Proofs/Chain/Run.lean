import Patchbay.Proofs.Chain.Names
import Patchbay.Proofs.Chain.Outcome
import Patchbay.Proofs.Dictionary

/-!
# Runs of folds

What a run of folds answers, said without the list that the folds share.  A fold visits properties:
those of the effects of its chain, or of the inner half and then of the outer half of a wrapped one,
without the one that is held back.  It visits all of them, or those up to and including the first
that cannot be folded, and then fails with that one (`Visits`).  After each fold the rules that have
been applied are the names in the table of rules among the properties visited so far, each at its
first occurrence (`FoldTask.run_spec`).

## Shape of the proof

* `Summarizes.record_foldlM`: the occurrences of one chain leave the names of those that are
  reached; a step that fails has left its name before.
* `Follows` says this of a fold of several halves and is kept by putting folds in sequence
  (`Follows.bind`), so every task follows its halves (`FoldTask.follows_fold`).
* `FoldTask.getElem?_run`: the names of the tasks are put into one list in order, by induction on
  them, and so are `FoldTask.extended_run` and `FoldTask.nodup_run`.
-/

namespace Patchbay

/-! ## What is visited -/

namespace Config

/-- The properties that a fold reaches after those met before: all up to the first flaw. -/
def reached (config : Config) :
    (met : List Property) → List (String × Property) → List (String × Property)
  | _, [] => []
  | met, (id, p) :: rest =>
    if (config.flaw? met p).isSome then [(id, p)]
    else (id, p) :: config.reached (met ++ [p]) rest

/-- The properties that folds of several halves reach.  After a half with a flaw there is no other
half. -/
def reachedIn (config : Config) : List (List (String × Property)) → List (String × Property)
  | [] => []
  | half :: rest =>
    config.reached [] half ++ if config.flaws [] half = [] then config.reachedIn rest else []

/-- The names of properties that the table of rules has, in order. -/
def ruledNames (config : Config) (visited : List (String × Property)) : List String :=
  (visited.map (·.2.name)).filter config.rules.contains

/-- What a fold of properties in halves visits, which has an outcome. -/
inductive Visits (config : Config) (halves : List (List (String × Property))) :
    Except Failure Arrangement → List (String × Property) → Prop where
  /-- A fold that succeeds visits everything. -/
  | all (result : Arrangement) (hflaws : ∀ half ∈ halves, config.flaws [] half = []) :
    Visits config halves (.ok result) halves.flatten
  /-- A fold that fails visits the properties up to and including the first one that cannot be
  folded after those before it, and fails with that one. -/
  | upTo (earlier later : List (List (String × Property))) (before after : List (String × Property))
      (id : String) (p : Property) (flaw : Flaw)
      (hhalves : halves = earlier ++ (before ++ (id, p) :: after) :: later)
      (hearlier : ∀ half ∈ earlier, config.flaws [] half = [])
      (hbefore : config.flaws [] before = [])
      (hflaw : config.flaw? (before.map (·.2)) p = some flaw) :
    Visits config halves (.error (.malformed id p.name flaw))
      (earlier.flatten ++ before ++ [(id, p)])

end Config

/-- The properties of the effects of a chain without the one that is held back, each with the id of
its step.  A chain of one step has none. -/
def Chain.unheld (heldBack : Option HeldBack) (c : Chain) : List (String × Property) :=
  c.effects.flatMap fun s => s.listed (s.unheld heldBack)

namespace FoldTask

/-- The properties that a task folds together: those of a single chain, or those of the inner half
and those of the outer half of a wrapped one. -/
def halves : FoldTask → List (List (String × Property))
  | chain c heldBack => [c.unheld heldBack]
  | arrangement (.plain c) => [c.unheld none]
  | arrangement (.wrapped wrapper inner outer) =>
    [inner.unheld (Arrangement.heldBack wrapper), outer.unheld none]

/-- The properties that a task visits. -/
def visited (config : Config) (task : FoldTask) : List (String × Property) :=
  config.reachedIn task.halves

end FoldTask

/-! ## Up to the first flaw -/

namespace Config

variable {config : Config} {met folded : List Property} {properties : List (String × Property)}
  {halves halves' : List (List (String × Property))}

theorem ruledNames_append (visited visited' : List (String × Property)) :
    config.ruledNames (visited ++ visited') =
      config.ruledNames visited ++ config.ruledNames visited' := by
  rw [ruledNames, List.map_append, List.filter_append, ← ruledNames, ← ruledNames]

theorem ruledNames_singleton (id : String) (p : Property) :
    config.ruledNames [(id, p)] = if config.rules.contains p.name then [p.name] else [] :=
  List.filter_singleton.trans (Bool.cond_eq_ite _ _ _)

theorem ruledNames_flatMap {α : Type} (f : α → List (String × Property)) (l : List α) :
    config.ruledNames (l.flatMap f) = l.flatMap fun a => config.ruledNames (f a) := by
  rw [ruledNames, List.map_flatMap, List.filter_flatMap]
  rfl

/-- Without a flaw everything is reached. -/
theorem reached_of_flaws_eq_nil (h : config.flaws met properties = []) :
    config.reached met properties = properties := by
  induction properties generalizing met with
  | nil => rfl
  | cons first rest ih =>
    obtain ⟨id, p⟩ := first
    obtain ⟨hfirst, hrest⟩ := List.append_eq_nil_iff.mp h
    have hnone : config.flaw? met p = none := by simpa using hfirst
    rw [reached, hnone, Option.isSome_none, if_neg Bool.false_ne_true, ih hrest]

/-- The first flaw is the end of what is reached. -/
theorem exists_reached_of_head?_flaws {e : Failure}
    (h : (config.flaws met properties).head? = some e) : ∃ before id p after flaw,
      properties = before ++ (id, p) :: after ∧ config.flaws met before = [] ∧
        config.flaw? (met ++ before.map (·.2)) p = some flaw ∧ e = .malformed id p.name flaw ∧
          config.reached met properties = before ++ [(id, p)] := by
  induction properties generalizing met with
  | nil => exact absurd h (by simp [flaws])
  | cons first rest ih =>
    obtain ⟨id, p⟩ := first
    rw [flaws] at h
    cases hflaw : config.flaw? met p with
    | some flaw =>
      rw [hflaw] at h
      refine ⟨[], id, p, rest, flaw, rfl, rfl, by simpa using hflaw, (Option.some.inj h).symm, ?_⟩
      rw [reached, hflaw, Option.isSome_some, if_pos rfl, List.nil_append]
    | none =>
      rw [hflaw] at h
      obtain ⟨before, id', q, after, flaw, rfl, hbefore, hq, he, hreached⟩ := ih h
      refine ⟨(id, p) :: before, id', q, after, flaw, rfl, ?_, by simpa using hq, he, ?_⟩
      · rw [flaws, hflaw, hbefore]
        rfl
      · rw [reached, hflaw, Option.isSome_none, if_neg Bool.false_ne_true, hreached,
          List.cons_append]

/-- Behind halves without flaws, further halves are reached. -/
theorem reachedIn_append_of_flaws_eq_nil (h : halves.flatMap (config.flaws []) = []) :
    config.reachedIn (halves ++ halves') = config.reachedIn halves ++ config.reachedIn halves' := by
  induction halves with
  | nil => rfl
  | cons half rest ih =>
    obtain ⟨hhalf, hrest⟩ := List.append_eq_nil_iff.mp h
    rw [List.cons_append, reachedIn, reachedIn, if_pos hhalf, if_pos hhalf, ih hrest,
      List.append_assoc]

/-- Behind halves with a flaw, nothing is reached. -/
theorem reachedIn_append_of_flaws_ne_nil (h : halves.flatMap (config.flaws []) ≠ []) :
    config.reachedIn (halves ++ halves') = config.reachedIn halves := by
  induction halves with
  | nil => exact absurd rfl h
  | cons half rest ih =>
    rw [List.cons_append, reachedIn, reachedIn]
    split
    next hhalf =>
      rw [List.flatMap_cons, hhalf, List.nil_append] at h
      rw [ih h]
    next => rfl

/-- What is reached of several halves is visited by a fold that fails with their first flaw. -/
theorem visits_reachedIn {outcome : Except Failure Arrangement}
    (h : Recorded.FailsFirst outcome (halves.flatMap (config.flaws []))) :
    config.Visits halves outcome (config.reachedIn halves) := by
  induction halves with
  | nil =>
    obtain ⟨result, rfl⟩ := h.exists_ok_iff.mpr rfl
    exact .all result fun half hhalf => absurd hhalf List.not_mem_nil
  | cons half rest ih =>
    rw [reachedIn]
    split
    next hhalf =>
      rw [List.flatMap_cons, hhalf, List.nil_append] at h
      rw [reached_of_flaws_eq_nil hhalf]
      -- what the other halves visit appears in the case that is split, so it is given a name first
      generalize hvisited : config.reachedIn rest = visited at ih
      cases ih h with
      | all result hflaws => exact .all result (List.forall_mem_cons.mpr ⟨hhalf, hflaws⟩)
      | upTo earlier later before after id p flaw hhalves hearlier hbefore hflaw =>
        have hvisits : config.Visits (half :: rest) (.error (.malformed id p.name flaw))
            ((half :: earlier).flatten ++ before ++ [(id, p)]) :=
          .upTo (half :: earlier) later before after id p flaw (by rw [hhalves, List.cons_append])
            (List.forall_mem_cons.mpr ⟨hhalf, hearlier⟩) hbefore hflaw
        simpa using hvisits
    next hhalf =>
      obtain ⟨e, he⟩ : ∃ e, (config.flaws [] half).head? = some e :=
        Option.ne_none_iff_exists'.mp (mt List.head?_eq_none_iff.mp hhalf)
      obtain rfl := (h e).mpr (by rw [List.flatMap_cons, List.head?_append, he, Option.some_or])
      obtain ⟨before, id, p, after, flaw, hsplit, hbefore, hflaw, rfl, hreached⟩ :=
        exists_reached_of_head?_flaws he
      rw [hreached, List.append_nil]
      exact .upTo [] rest before after id p flaw (by rw [hsplit, List.nil_append])
        (fun half hhalf => absurd hhalf List.not_mem_nil) hbefore hflaw

/-! ## The names that a fold leaves -/

/-- A step of a fold leaves the name of its property, if the table has it, also where it fails. -/
theorem record_foldProperty (step : Step) (p : Property) :
    (config.foldProperty folded (step, p)).record = config.ruledNames [(step.id, p)] := by
  rw [ruledNames_singleton]
  exact Recorded.record_bind_of_quiet fun _ => Recorded.record_bind_of_quiet fun _ => rfl

/-- A fold leaves the names of the occurrences that it reaches. -/
theorem Summarizes.record_foldlM (h : Summarizes config met folded)
    (occurrences : List (Step × Property)) :
    (occurrences.foldlM config.foldProperty folded).record =
      config.ruledNames (config.reached met (occurrences.map fun o => (o.1.id, o.2))) := by
  -- on the occurrences left; what was met so far and the list for it move along
  induction occurrences generalizing met folded with
  | nil => rfl
  | cons occurrence rest ih =>
    obtain ⟨step, p⟩ := occurrence
    have hfails := h.failsFirst_foldProperty step p
    rw [List.foldlM_cons, List.map_cons, reached]
    cases hflaw : config.flaw? met p with
    | some flaw =>
      obtain ⟨e, he⟩ := hfails.exists_error_iff.mpr (by simp [hflaw])
      rw [Recorded.bind_of_error he, Option.isSome_some, if_pos rfl, record_foldProperty]
    | none =>
      obtain ⟨next, hnext⟩ := hfails.exists_ok_iff.mpr (by simp [hflaw])
      obtain ⟨value, hvalue, rfl⟩ := outcome_foldProperty_eq_ok.mp hnext
      rw [Recorded.record_bind_of_ok hnext, Option.isSome_none, if_neg Bool.false_ne_true,
        record_foldProperty, ih (h.store hvalue), ← ruledNames_append, List.singleton_append]

/-- A step folds the properties of some halves: it fails with their first flaw, and leaves the names
of those that are reached. -/
structure Follows {α : Type} (config : Config) (halves : List (List (String × Property)))
    (x : Recorded String α) : Prop where
  fails : Recorded.FailsFirst x.outcome (halves.flatMap (config.flaws []))
  record : x.record = config.ruledNames (config.reachedIn halves)

namespace Follows

variable {α β : Type}

/-- A step that folds nothing follows no halves. -/
theorem pure (a : α) : config.Follows [] (Pure.pure a) := ⟨Recorded.failsFirst_ok a, rfl⟩

/-- The halves of a second step come after those of the first. -/
theorem bind {x : Recorded String α} {f : α → Recorded String β} (h : config.Follows halves x)
    (hf : ∀ a, config.Follows halves' (f a)) : config.Follows (halves ++ halves') (x >>= f) where
  fails := by
    rw [List.flatMap_append]
    exact h.fails.bind fun a _ => (hf a).fails
  record := by
    -- only a first step without flaws is followed by the second one
    cases hx : x.outcome with
    | ok a =>
      have hflaws := h.fails.exists_ok_iff.mp ⟨a, hx⟩
      rw [Recorded.record_bind_of_ok hx, h.record, (hf a).record, ← ruledNames_append,
        reachedIn_append_of_flaws_eq_nil hflaws]
    | error e =>
      have hflaws := h.fails.exists_error_iff.mp ⟨e, hx⟩
      rw [Recorded.bind_of_error hx, h.record, reachedIn_append_of_flaws_ne_nil hflaws]

/-- What is made of the result in the end makes no difference. -/
theorem bind_pure {x : Recorded String α} {f : α → β} (h : config.Follows halves x) :
    config.Follows halves (x >>= fun a => Pure.pure (f a)) := by
  have hbind := h.bind fun a => Follows.pure (f a)
  rwa [List.append_nil] at hbind

end Follows

end Config

/-- The fold of a chain follows its properties without the one that is held back. -/
theorem Chain.follows_fold (config : Config) (c : Chain) (heldBack : Option HeldBack) :
    config.Follows [c.unheld heldBack] (c.fold config heldBack) := by
  obtain ⟨_ | ⟨head, effects⟩⟩ := c
  · exact ⟨Recorded.failsFirst_ok _, rfl⟩
  have hunheld : (Chain.mk (head :: effects)).unheld heldBack =
      effects.flatMap fun s => s.listed (foldedProperties heldBack s) := by
    rw [foldedProperties_eq_unheld]
    rfl
  constructor
  case fails =>
    rw [List.flatMap_singleton, hunheld]
    exact failsFirst_fold config head effects heldBack
  case record =>
    have hnothing : Config.Summarizes config [] [] := Config.summarizes_nil
    have hrecord := hnothing.record_foldlM ((Chain.mk (head :: effects)).occurrences heldBack)
    rw [map_occurrences, Chain.effects, List.tail_cons, ← hunheld] at hrecord
    -- effects)).unheld heldBack] = :: with a single half it makes no difference whether there is a
    -- flaw in it
    have hreached : config.reachedIn [(Chain.mk (head :: effects)).unheld heldBack] =
        config.reached [] ((Chain.mk (head :: effects)).unheld heldBack) := by
      rw [Config.reachedIn, Config.reachedIn, ite_self, List.append_nil]
    rw [hreached, ← hrecord, fold_cons]
    exact Recorded.record_bind_of_quiet fun _ => rfl

namespace FoldTask

variable {config : Config}

/-- The fold of a task follows its halves. -/
theorem follows_fold (config : Config) (task : FoldTask) :
    config.Follows task.halves (task.fold config) := by
  cases task with
  | chain c heldBack => exact (c.follows_fold config heldBack).bind_pure
  | arrangement a =>
    cases a with
    | plain c => exact (c.follows_fold config none).bind_pure
    | wrapped wrapper inner outer =>
      exact (inner.follows_fold config (Arrangement.heldBack wrapper)).bind fun _ =>
        (outer.follows_fold config none).bind_pure

/-- The fold of a task leaves the names of the properties that it visits. -/
theorem record_fold (task : FoldTask) :
    (task.fold config).record = config.ruledNames (task.visited config) :=
  (task.follows_fold config).record

/-! ## Runs -/

/-- Each task has its own outcome, and the list into which the names of the tasks up to it were
put. -/
theorem getElem?_run (applied : List String) (tasks : List FoldTask) (i : Nat) :
    (run config applied tasks)[i]? = tasks[i]?.map fun task => ((task.fold config).outcome,
      ((tasks.take (i + 1)).flatMap fun task => (task.fold config).record).foldl addName
        applied) := by
  -- on the tasks; the list that is handed on moves along
  induction tasks generalizing applied i with
  | nil => rfl
  | cons task rest ih =>
    rw [run]
    cases i with
    | zero => simp [Recorded.carry]
    | succ i =>
      rw [List.getElem?_cons_succ, List.getElem?_cons_succ, ih, List.take_succ_cons,
        List.flatMap_cons, List.foldl_append]
      rfl

theorem length_run (applied : List String) (tasks : List FoldTask) :
    (run config applied tasks).length = tasks.length := by
  induction tasks generalizing applied with
  | nil => rfl
  | cons task rest ih => rw [run, List.length_cons, List.length_cons, ih]

/-- The list that a run begins with is the beginning of all lists, and each of these is the
beginning of the next ones. -/
theorem extended_run (applied : List String) (tasks : List FoldTask) :
    (applied :: (run config applied tasks).map (·.2)).Pairwise (· <+: ·) := by
  induction tasks generalizing applied with
  | nil => exact List.pairwise_singleton _ _
  | cons task rest ih =>
    rw [run, List.map_cons]
    have hnext := ih ((task.fold config).carry applied).2
    -- the first list begins the second, and the second all those behind it
    have hfirst : applied <+: ((task.fold config).carry applied).2 := extends_foldl_addName _ _
    refine List.pairwise_cons.mpr ⟨?_, hnext⟩
    rw [List.forall_mem_cons]
    exact ⟨hfirst, fun later hlater => hfirst.trans (List.rel_of_pairwise_cons hnext hlater)⟩

/-- A run that begins with a list without repetitions has only such lists. -/
theorem nodup_run {applied : List String} (h : applied.Nodup) (tasks : List FoldTask) :
    ∀ answer ∈ run config applied tasks, answer.2.Nodup := by
  induction tasks generalizing applied with
  | nil => exact fun answer hanswer => absurd hanswer List.not_mem_nil
  | cons task rest ih =>
    have hnext : ((task.fold config).carry applied).2.Nodup := nodup_foldl_addName h _
    rw [run, List.forall_mem_cons]
    exact ⟨hnext, ih hnext⟩

/-- What a run of folds answers to its tasks. -/
structure RunSpec (config : Config) (tasks : List FoldTask)
    (answers : List (Except Failure Arrangement × List String)) : Prop where
  /-- Every task is answered. -/
  length : answers.length = tasks.length
  /-- A task has the outcome that it has in a run of its own. -/
  independent : ∀ (i : Nat) task outcome applied, tasks[i]? = some task →
    answers[i]? = some (outcome, applied) → ∃ alone, run config [] [task] = [(outcome, alone)]
  /-- What a task visits is all it folds, or ends with the property that it fails with. -/
  visits : ∀ (i : Nat) task outcome applied, tasks[i]? = some task →
    answers[i]? = some (outcome, applied) →
      config.Visits task.halves outcome (task.visited config)
  /-- The rules applied are the names in the table among the properties visited up to and with the
  task, in the order of their first occurrences. -/
  applied : ∀ (i : Nat) outcome applied, answers[i]? = some (outcome, applied) →
    applied = (config.ruledNames ((tasks.take (i + 1)).flatMap (visited config))).eraseDups
  /-- The list is extended at its end only. -/
  extended : (answers.map (·.2)).Pairwise (· <+: ·)
  /-- No name is in it twice. -/
  nodup : ∀ answer ∈ answers, answer.2.Nodup
  /-- Each of its names has a rule in the table. -/
  ruled : ∀ answer ∈ answers, ∀ name ∈ answer.2, name ∈ config.rules.keys

/-- The outcome in an answer is that of the task alone. -/
theorem fst_of_getElem?_run {tasks : List FoldTask} {i : Nat} {task : FoldTask}
    {answer : Except Failure Arrangement × List String} (htask : tasks[i]? = some task)
    (h : (run config [] tasks)[i]? = some answer) : answer.1 = (task.fold config).outcome := by
  rw [getElem?_run, htask, Option.map_some] at h
  rw [← Option.some.inj h]

/-- The rules applied after the tasks up to an index. -/
theorem snd_of_getElem?_run {tasks : List FoldTask} {i : Nat}
    {answer : Except Failure Arrangement × List String}
    (h : (run config [] tasks)[i]? = some answer) :
    answer.2 = (config.ruledNames ((tasks.take (i + 1)).flatMap (visited config))).eraseDups := by
  rw [getElem?_run] at h
  obtain ⟨task, -, rfl⟩ := Option.map_eq_some_iff.mp h
  simp only [record_fold, ← Config.ruledNames_flatMap]
  exact foldl_addName [] _

/-- **What a run of folds leaves.**  Whatever chains and arrangements are folded one after another,
and whether or not the folds succeed: the outcome of each is its own, and the rules applied after it
are those of the properties visited up to then, each once, in the order of the first visits. -/
theorem run_spec (config : Config) (tasks : List FoldTask) :
    RunSpec config tasks (run config [] tasks) where
  length := length_run [] tasks
  independent := by
    intro i task outcome applied htask hanswer
    obtain rfl := fst_of_getElem?_run htask hanswer
    exact ⟨_, rfl⟩
  visits := by
    intro i task outcome applied htask hanswer
    obtain rfl := fst_of_getElem?_run htask hanswer
    exact Config.visits_reachedIn (task.follows_fold config).fails
  applied := fun i outcome applied hanswer => snd_of_getElem?_run hanswer
  extended := (List.pairwise_cons.mp (extended_run [] tasks)).2
  nodup := nodup_run List.nodup_nil tasks
  ruled := by
    intro answer hanswer name hname
    obtain ⟨i, hi⟩ := List.mem_iff_getElem?.mp hanswer
    rw [snd_of_getElem?_run hi, List.mem_eraseDups] at hname
    obtain ⟨rule, hrule⟩ := Option.isSome_iff_exists.mp (List.mem_filter.mp hname).2
    exact List.mem_map_of_mem (Dictionary.mem_of_get? hrule)

/-- A step without a declared type. -/
def plainStep (type : String) (properties : List Property) : Step where
  id := type
  nodeType := type
  category := none
  stage := none
  wraps := false
  call := type
  properties := properties

/-- The fold of a source and one effect. -/
def shaping (properties : List Property) : FoldTask :=
  .chain ⟨[plainStep "drums" [], plainStep "shape" properties]⟩ none

/-- The first fold fails at its second property.  The second one meets a neutral value, a name that
is in the list and one that has no rule. -/
example :
    (run .standard [] [
      shaping [⟨"pan", .flag true⟩, ⟨"gain", .text "loud"⟩, ⟨"lpf", .flag true⟩],
      shaping [⟨"speed", .number (.ofNat 1)⟩, ⟨"pan", .flag true⟩, ⟨"size", .flag true⟩]]).map
        (·.2) = [["pan", "gain"], ["pan", "gain", "speed"]] := by
  decide +kernel

end FoldTask

end Patchbay
