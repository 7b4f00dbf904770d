import Patchbay.Proofs.Chain.Outcome

/-!
# Products that are rounded at each step

A fold rounds a product after every factor (`productOf`) and not once at the end (`roundedProduct`).
The two agree as long as rounding the product so far never shows in the rounded product with the
next factor (`Undisturbed`), and for the factors up to each one they agree only then
(`undisturbed_iff`).  Small factors before large ones do show: what is rounded to zero on the way
stays zero, however large the factors are that follow (`isZero_productOf`).

## Shape of the proof

* One factor more leads from the product of the first factors to the next (`productOf_take_succ`,
  `plainProduct_take_succ`), and agreement follows by induction on the number of factors.
* A zero is kept by one more factor (`Binary64.isZero_mul`), and so by all that follow.
* The list that a fold ends with has the product under its name and nothing else
  (`Summarizes.mem_iff_of_numbers`), and the fold can fail there only where a partial product is not
  finite (`exists_ne_of_fold_error`).
-/

namespace Patchbay

/-! ## Zeros and finite numbers -/

namespace Binary64

variable {x y : Binary64}

/-- A product is finite only if both factors are. -/
theorem isFinite_of_mul (h : (x * y).isFinite) : x.isFinite ∧ y.isFinite := by
  change (mul x y).isFinite = true at h
  unfold mul at h
  split at h
  · exact ⟨rfl, rfl⟩
  all_goals first | cases h | (split at h <;> cases h)

/-- A zero is kept by a factor, unless the product is not a number. -/
theorem isZero_mul (hzero : x.isZero) (h : (x * y).isFinite) : ∃ s, x * y = zero s := by
  obtain ⟨s, m, e, hc, rfl⟩ := exists_of_isFinite (isFinite_of_mul h).1
  obtain ⟨t, n, f, hd, rfl⟩ := exists_of_isFinite (isFinite_of_mul h).2
  obtain rfl : m = 0 := beq_iff_eq.mp hzero
  refine ⟨s != t, ?_⟩
  show ofScaled _ (0 * n) (e + f) = _
  rw [ofScaled, Nat.zero_mul, Nat.zero_mul]
  rfl

/-- Zero is rounded to itself. -/
theorem roundToDecimals_zero (s : Bool) : (zero s).roundToDecimals productPlaces = zero s := by
  cases s <;> decide +kernel

end Binary64

/-! ## Rounding at each step and once -/

/-- The product of numbers from 1, in the format but not rounded to decimal places. -/
def plainProduct (xs : List Binary64) : Binary64 := xs.foldl (· * ·) (.ofNat 1)

/-- The product of numbers from 1, rounded once. -/
def roundedProduct (xs : List Binary64) : Binary64 :=
  (plainProduct xs).roundToDecimals productPlaces

/-- Rounding the product of the numbers before any one of them makes no difference to the rounded
product with it. -/
def Undisturbed (xs : List Binary64) : Prop :=
  ∀ (k : ℕ) (h : k < xs.length),
    (roundedProduct (xs.take k) * xs[k]).roundToDecimals productPlaces =
      (plainProduct (xs.take k) * xs[k]).roundToDecimals productPlaces

instance (xs : List Binary64) : Decidable (Undisturbed xs) :=
  inferInstanceAs (Decidable (∀ k, ∀ _ : k < xs.length, _))

section Products

variable {xs : List Binary64} {k : ℕ}

/-- One factor more is multiplied with the product so far. -/
theorem plainProduct_take_succ (h : k < xs.length) :
    plainProduct (xs.take (k + 1)) = plainProduct (xs.take k) * xs[k] := by
  rw [← List.take_append_getElem h, plainProduct, List.foldl_append]
  rfl

/-- One factor more is multiplied with the rounded product so far, and rounded again. -/
theorem productOf_take_succ (h : k < xs.length) :
    productOf (xs.take (k + 1)) =
      (productOf (xs.take k) * xs[k]).roundToDecimals productPlaces := by
  rw [← List.take_append_getElem h, productOf_concat]

/-- **Where rounding at each step is rounding once.**  The products of the first numbers, rounded at
each step, are their products rounded once exactly if rounding never disturbs the next number. -/
theorem undisturbed_iff :
    Undisturbed xs ↔ ∀ k ≤ xs.length, productOf (xs.take k) = roundedProduct (xs.take k) := by
  constructor
  · intro hundisturbed k
    -- on the number of factors; each of them is multiplied to the same number by hypothesis
    induction k with
    | zero =>
      intro _
      rw [List.take_zero]
      decide +kernel
    | succ k ih =>
      intro hk
      rw [productOf_take_succ hk, ih (Nat.le_of_succ_le hk), hundisturbed k hk, roundedProduct,
        plainProduct_take_succ hk]
  · intro hagree k hk
    calc (roundedProduct (xs.take k) * xs[k]).roundToDecimals productPlaces
        = productOf (xs.take (k + 1)) := by rw [productOf_take_succ hk, hagree k hk.le]
      _ = roundedProduct (xs.take (k + 1)) := hagree (k + 1) hk
      _ = _ := by rw [roundedProduct, plainProduct_take_succ hk]

/-- It is enough that rounding leaves the products before each number alone. -/
theorem undisturbed_of_rounded
    (h : ∀ k < xs.length, roundedProduct (xs.take k) = plainProduct (xs.take k)) :
    Undisturbed xs := fun k hk => by rw [h k hk]

/-- A product of the first numbers that is zero stays so if the whole product is finite. -/
theorem isZero_productOf (hfinite : (productOf xs).isFinite)
    (hzero : (productOf (xs.take k)).isZero) : (productOf xs).isZero := by
  -- on the numbers after the first ones, from the last
  obtain ⟨first, rest, hfirst, rfl⟩ : ∃ first rest, first = xs.take k ∧ xs = first ++ rest :=
    ⟨_, xs.drop k, rfl, (List.take_append_drop k xs).symm⟩
  rw [← hfirst] at hzero
  clear hfirst
  induction rest using List.reverseRecOn with
  | nil => simpa using hzero
  | append_singleton rest x ih =>
    rw [← List.append_assoc, productOf_concat] at hfinite ⊢
    have hmul := (Binary64.isFinite_roundToDecimals _).symm.trans hfinite
    obtain ⟨s, hs⟩ := Binary64.isZero_mul (ih (Binary64.isFinite_of_mul hmul).1) hmul
    rw [hs, Binary64.roundToDecimals_zero]
    rfl

end Products

/-! ## The product that a fold keeps -/

namespace Config

variable {config : Config} {met folded : List Property} {name : String} {xs : List Binary64}

/-- Values that are numbers are all read as numbers. -/
theorem mapM_number?_of_numbers (h : valuesOf name met = xs.map .number) :
    (valuesOf name met).mapM Value.number? = some xs := by
  rw [h, List.mapM_map]
  exact (List.mapM_pure (m := Option) (f := id)).trans (congrArg some (List.map_id xs))

/-- Numbers under a name that multiplies combine to their product. -/
theorem combined_of_numbers (hrule : config.ruleOf name = .multiply)
    (h : valuesOf name met = xs.map .number) :
    config.combined met name = some (.number (productOf xs)) := by
  rw [combined, hrule, Rule.combined, mapM_number?_of_numbers h, Option.map_some]

/-- Under a name that multiplies numbers there is their product and nothing else. -/
theorem Summarizes.mem_iff_of_numbers (h : Summarizes config met folded)
    (hrule : config.ruleOf name = .multiply) (hnumbers : valuesOf name met = xs.map .number)
    (hoccurs : xs ≠ []) {value : Value} :
    ⟨name, value⟩ ∈ folded ↔ value = .number (productOf xs) := by
  have hcombined : config.combined met name = some (.number (productOf xs)) :=
    combined_of_numbers hrule hnumbers
  constructor
  · intro hmem
    exact Option.some.inj ((h.values _ hmem).symm.trans hcombined)
  · rintro rfl
    have hname : name ∈ met.map (·.name) := by
      by_contra hnot
      rw [valuesOf_eq_nil hnot] at hnumbers
      exact hoccurs (List.map_eq_nil_iff.mp hnumbers.symm)
    obtain ⟨⟨_, value⟩, hp, rfl⟩ := List.mem_map.mp (h.mem_names.mpr hname)
    obtain rfl := Option.some.inj ((h.values _ hp).symm.trans hcombined)
    exact hp

end Config

namespace Chain

variable {config : Config} {heldBack : Option HeldBack} {c d : Chain} {name : String}
  {xs : List Binary64}

/-- The effects of a chain have the number under the name and nothing else, or nothing at all if the
number is neutral there. -/
def Keeps (config : Config) (d : Chain) (name : String) (x : Binary64) : Prop :=
  ∀ value, ⟨name, value⟩ ∈ d.effects.flatMap (·.properties) ↔
    value = .number x ∧ ¬ config.Neutral ⟨name, value⟩

/-- What a fold makes of the numbers `xs` under a name that multiplies. -/
structure Multiplied (config : Config) (name : String) (xs : List Binary64)
    (outcome : Except Failure Chain) : Prop where
  /-- The product that is rounded at each step is kept, unless it is neutral. -/
  stepwise : ∀ d, outcome = .ok d → d.Keeps config name (productOf xs)
  /-- This is the product rounded once for the first of the numbers, however many, exactly if
  rounding never disturbs the next one. -/
  agreement : Undisturbed xs ↔ ∀ k ≤ xs.length, productOf (xs.take k) = roundedProduct (xs.take k)
  /-- Where rounding disturbs nothing the product rounded once is kept, unless it is neutral. -/
  undisturbed : Undisturbed xs → ∀ d, outcome = .ok d → d.Keeps config name (roundedProduct xs)
  /-- If moreover the products of the first of the numbers are finite, nothing fails here. -/
  succeeds : Undisturbed xs → (∀ k ≤ xs.length, (plainProduct (xs.take k)).isFinite) →
    ∀ e, outcome = .error e → ∃ id other flaw, e = .malformed id other flaw ∧ other ≠ name
  /-- A product that is zero on the way makes the whole product zero, whatever follows. -/
  absorbed : ∀ d, outcome = .ok d → ∀ k, (productOf (xs.take k)).isZero → (productOf xs).isZero

section Fold

variable {head : Step} {effects : List Step}
  (hnumbers : valuesOf name (effects.flatMap (Step.unheld heldBack)) = xs.map .number)

include hnumbers

/-- A fold that succeeds keeps the product, which is finite, unless it is neutral. -/
theorem keeps_of_fold (hrule : config.ruleOf name = .multiply) (hoccurs : xs ≠ [])
    (hfold : ((Chain.mk (head :: effects)).fold config heldBack).outcome = .ok d) :
    d.Keeps config name (productOf xs) ∧ (productOf xs).isFinite := by
  obtain ⟨folded, hsummarizes, -⟩ := exists_summarizes_of_fold hfold
  have hkept := (effects_fold hfold).2
  rw [Config.audible, ← hsummarizes.eq_summary] at hkept
  rw [folding, foldedProperties_eq_unheld] at hsummarizes
  constructor
  · intro value
    rw [hkept, List.mem_filter, hsummarizes.mem_iff_of_numbers hrule hnumbers hoccurs,
      decide_eq_true_iff]
  · have hmem := (hsummarizes.mem_iff_of_numbers hrule hnumbers hoccurs).mpr rfl
    obtain ⟨x, hx, hvalue⟩ := hsummarizes.settled _ hmem hrule
    rw [Value.number.inj hvalue, productPlaces, Binary64.isFinite_roundToDecimals]
    exact hx

/-- Where the products of the first numbers are finite, a fold can fail at other names only. -/
theorem exists_ne_of_fold_error (hfinite : ∀ k ≤ xs.length, (productOf (xs.take k)).isFinite)
    {e : Failure} (hfold : ((Chain.mk (head :: effects)).fold config heldBack).outcome = .error e) :
    ∃ id other flaw, e = .malformed id other flaw ∧ other ≠ name := by
  have hflaws := (failsFirst_fold config head effects heldBack e).mp hfold
  obtain ⟨before, id, p, after, flaw, hsplit, hflaw, rfl⟩ :=
    Config.mem_flaws_iff.mp (List.mem_of_head? hflaws)
  refine ⟨id, p.name, flaw, rfl, ?_⟩
  rintro rfl
  have hmet := congrArg (List.map (·.2)) hsplit
  rw [map_snd_listed, foldedProperties_eq_unheld, List.map_append, List.map_cons] at hmet
  have hvalue : p.value ∈ xs.map .number := by
    rw [← hnumbers, hmet, valuesOf]
    simp
  -- the numbers up to the property that fails are the first ones
  have hbefore : before.map (·.2) ++ [p] <+: effects.flatMap (Step.unheld heldBack) :=
    ⟨after.map (·.2), by rw [hmet, List.append_assoc, List.singleton_append]⟩
  have hfirst : numbersOf p.name (before.map (·.2) ++ [p]) <+: xs := by
    rw [← numbersOf_of_mapM (Config.mapM_number?_of_numbers hnumbers)]
    exact ((hbefore.filter _).map _).filterMap _
  obtain ⟨-, hnone | hbeyond⟩ := Config.isSome_flaw?_iff.mp (Option.isSome_of_eq_some hflaw)
  · obtain ⟨x, -, hx⟩ := List.mem_map.mp hvalue
    rw [← hx] at hnone
    exact absurd hnone (by simp [Value.number?])
  · rw [List.nil_append, List.prefix_iff_eq_take.mp hfirst] at hbeyond
    exact hbeyond (hfinite _ hfirst.length_le)

end Fold

/-- **What a fold makes of numbers that it multiplies.**  Under a name that multiplies, and at whose
occurrences there are only numbers, a fold that succeeds keeps their product rounded at each step.
That is the product rounded once where rounding disturbs no further number, and then the fold fails
there only if a product of the first numbers is not finite.  But what is zero on the way is zero in
the end. -/
theorem multiplied_of_fold (hrule : config.ruleOf name = .multiply)
    (hnumbers : valuesOf name (c.effects.flatMap (Step.unheld heldBack)) = xs.map .number)
    (hoccurs : xs ≠ []) : Multiplied config name xs (c.fold config heldBack).outcome := by
  obtain ⟨_ | ⟨head, effects⟩⟩ := c
  · exact absurd (List.map_eq_nil_iff.mp hnumbers.symm) hoccurs
  have hkeeps (d : Chain) :
      ((Chain.mk (head :: effects)).fold config heldBack).outcome = .ok d →
        d.Keeps config name (productOf xs) ∧ (productOf xs).isFinite :=
    keeps_of_fold hnumbers hrule hoccurs
  have hagree : Undisturbed xs → productOf xs = roundedProduct xs := fun h => by
    simpa using undisturbed_iff.mp h xs.length le_rfl
  refine ⟨fun d hd => (hkeeps d hd).1, undisturbed_iff, ?_, ?_, ?_⟩
  · intro h d hd
    exact hagree h ▸ (hkeeps d hd).1
  · intro h hfinite e
    refine exists_ne_of_fold_error hnumbers fun k hk => ?_
    rw [undisturbed_iff.mp h k hk, roundedProduct, productPlaces,
      Binary64.isFinite_roundToDecimals]
    exact hfinite k hk
  · intro d hd k
    exact isZero_productOf (hkeeps d hd).2

/-- A source with three gains, two of them with a speed. -/
def fadedChain : Chain := ⟨[
  step "kick" [],
  step "low" [⟨"gain", .number tiny⟩, ⟨"speed", .number (decimal 5 (-1))⟩],
  step "lower" [⟨"gain", .number tiny⟩, ⟨"speed", .number (decimal 2 0)⟩],
  step "loud" [⟨"gain", .number huge⟩]]⟩
where
  decimal (coefficient : ℕ) (exponent : ℤ) : Binary64 :=
    Decimal.toBinary64 false ⟨coefficient, exponent⟩
  tiny : Binary64 := decimal 1 (-5)
  huge : Binary64 := decimal 1 10
  /-- A step that wraps nothing. -/
  step (id : String) (properties : List Property) : Step :=
    { id, nodeType := "gain", category := some .modulation, stage := some (.standard .modulation),
      wraps := false, call := "gain", properties }

open fadedChain in
/-- The three gains amount to 1, but the first two to a tenth of a billionth, so the gain becomes 0.
The speeds amount to 1 without being rounded, so the speed vanishes. -/
theorem multiplied_of_fold_fadedChain :
    (fadedChain.fold .standard none).outcome = .ok ⟨[step "kick" [],
        { step "loud" [⟨"gain", .number (.zero false)⟩] with synthetic := true }]⟩ ∧
      Multiplied .standard "gain" [tiny, tiny, huge] (fadedChain.fold .standard none).outcome ∧
      ¬ Undisturbed [tiny, tiny, huge] ∧ roundedProduct [tiny, tiny, huge] = .ofNat 1 ∧
      Multiplied .standard "speed" [decimal 5 (-1), decimal 2 0]
        (fadedChain.fold .standard none).outcome ∧
      Undisturbed [decimal 5 (-1), decimal 2 0] := by
  refine ⟨by decide +kernel, ?_, by decide +kernel, by decide +kernel, ?_, ?_⟩
  · exact multiplied_of_fold (by decide +kernel) (by decide +kernel) (by simp)
  · exact multiplied_of_fold (by decide +kernel) (by decide +kernel) (by simp)
  · exact undisturbed_of_rounded (by decide +kernel)

end Chain

end Patchbay
