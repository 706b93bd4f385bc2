import Mathlib.Tactic.FieldSimp
import Mathlib.Tactic.Module
import Optimum.Proofs.Descent.Methods
import Optimum.Proofs.Vector.Euclidean

/-!
# Conjugate directions in closed form

A Fletcher-Reeves direction is computed from the direction before it, and so from all gradients since
the last restart. In exact arithmetic the recursion has a closed form: along a cycle in which no gradient
vanishes, the direction is a combination of the gradients of the cycle, each weighted by the inverse
square of its norm. The steps that the line searches took do not occur in it, nor does any gradient
before the restart.

## What is proved

* `Strategy.Recalls.point_conjugateTo`: the closed form, by induction on the gradients recalled.
* `Stage.Conjugated.step`: what a run recalls are the gradients of the stages passed.
* `Run.direction_of_recordOn`: the directions of every run.
-/

namespace Optimum

open Scalar

/-! ### The closed form -/

namespace Strategy

variable {n m k : ℕ} {g s : Vec ℝ} {gs : List (Vec ℝ)} {last : Option (Conjugate ℝ)}

/-- What directions with a restart every `m` iterations have recalled after iterations at the gradients
`gs`. -/
inductive Recalls (m : ℕ) : List (Vec ℝ) → Option (Conjugate ℝ) → Prop where
  /-- Nothing at the start. -/
  | start : Recalls m [] none
  /-- Afterwards the last direction, with the squared norm of the gradient there. -/
  | later {gs : List (Vec ℝ)} {last : Option (Conjugate ℝ)} (g : Vec ℝ) : Recalls m gs last →
      Recalls m (gs ++ [g]) (some ⟨conjugateTo m gs.length g last, Vec.dot g g⟩)

/-- The gradients since the last restart. -/
def cycle {β : Type} (m : ℕ) (history : List β) : List β := history.drop (m * (history.length / m))

theorem cycle_of_dvd {β : Type} {history : List β} (h : m ∣ history.length) :
    cycle m history = [] := by
  rw [cycle, Nat.mul_div_cancel' h, List.drop_length]

/-- Between restarts the cycle grows. -/
theorem cycle_append {β : Type} {history : List β} {b : β} (h : ¬ m ∣ history.length + 1) :
    cycle m (history ++ [b]) = cycle m history ++ [b] := by
  rw [cycle, List.length_append, List.length_singleton, Nat.succ_div_of_not_dvd h,
    List.drop_append_of_le_length (Nat.mul_div_le _ _), cycle]

/-- At a restart the direction is the negative gradient. -/
theorem conjugateTo_of_dvd (h : m ∣ k) : conjugateTo m k g last = g.neg := by
  cases last with
  | none => rfl
  | some c => exact if_neg fun hand => hand.1 (Nat.mod_eq_zero_of_dvd h)

/-- Between restarts a multiple of the last direction is added to it, if the last gradient does not
vanish. -/
theorem point_conjugateTo_some {c : Conjugate ℝ} (hg : g.length = n) (hs : c.s.length = n)
    (hk : ¬ m ∣ k) (hgg : 0 < c.gg) : Vec.point n (conjugateTo m k g (some c)) =
      -Vec.point n g + (‖Vec.point n g‖ ^ 2 / c.gg) • Vec.point n c.s := by
  have hbranch : conjugateTo m k g (some c) =
      List.zipWith (fun gi si => -gi + Vec.dot g g / c.gg * si) g c.s :=
    if_pos ⟨fun h => hk (Nat.dvd_of_mod_eq_zero h), hgg⟩
  rw [hbranch, ← Vec.dot_self_eq hg]
  ext i
  simp [Vec.point_apply, hg, hs]

/-- After a gradient that vanishes the direction is the negative gradient as well. -/
theorem Recalls.conjugateTo_of_isZero {g' : Vec ℝ} (h : Recalls m (gs ++ [g']) last)
    (hzero : g'.IsZero) : conjugateTo m k g last = g.neg := by
  generalize hrecalled : gs ++ [g'] = recalled at h
  cases h with
  | start => exact absurd hrecalled (by simp)
  | later g'' _ =>
    obtain ⟨-, hlast⟩ := List.append_inj' hrecalled rfl
    obtain ⟨rfl, -⟩ := List.cons.inj hlast
    have hgg : Vec.dot g' g' = 0 := by
      rw [Vec.dot_self_eq rfl, ← Vec.norm_eq rfl, (Vec.norm_eq_zero_iff g').mpr hzero, sq, zero_mul]
    exact if_neg fun hand => hand.2.ne' hgg

/-- The sum of the gradients of a cycle, each weighted by the inverse square of its norm. -/
noncomputable def weighted (n : ℕ) (gs : List (Vec ℝ)) : EuclideanSpace ℝ (Fin n) :=
  (gs.map fun g => (‖Vec.point n g‖ ^ 2)⁻¹ • Vec.point n g).sum

theorem Recalls.length_eq (h : Recalls m gs last) (hgs : ∀ g ∈ gs, g.length = n) :
    ∀ c, last = some c → c.s.length = n := by
  induction h with
  | start => exact nofun
  | @later gs last g h ih =>
    obtain ⟨hgs, hg⟩ := List.forall_mem_append.mp hgs
    rintro c hc
    cases hc
    exact Method.length_conjugateTo m gs.length (hg g List.mem_cons_self) (ih hgs)

/-- How a multiple of a direction becomes one of the sum that the direction is made of. -/
private theorem add_multiple {E : Type} [AddCommGroup E] [Module ℝ E] {a b : ℝ} (hb : b ≠ 0)
    (g h w : E) : -g + (a / b) • (-b • w - h) = -a • (w + b⁻¹ • h) - g := by
  match_scalars <;> field_simp

/-- **The closed form of conjugate directions**, along a cycle in which no gradient vanishes. -/
theorem Recalls.point_conjugateTo (h : Recalls m gs last) (hgs : ∀ g ∈ gs, g.length = n)
    (hg : g.length = n) (hcycle : ∀ g ∈ cycle m gs, ¬ g.IsZero) :
    Vec.point n (conjugateTo m gs.length g last) =
      -(‖Vec.point n g‖ ^ 2) • weighted n (cycle m gs) - Vec.point n g := by
  -- The induction is on the gradients recalled, so that the last direction is the one of the
  -- induction hypothesis.
  induction h generalizing g with
  | start =>
    have hdvd : m ∣ ([] : List (Vec ℝ)).length := dvd_zero m
    rw [conjugateTo_of_dvd hdvd, cycle_of_dvd hdvd, Vec.point_neg hg]
    simp [weighted]
  | @later gs last g' h ih =>
    by_cases hdvd : m ∣ (gs ++ [g']).length
    · rw [conjugateTo_of_dvd hdvd, cycle_of_dvd hdvd, Vec.point_neg hg]
      simp [weighted]
    · rw [List.length_append, List.length_singleton] at hdvd ⊢
      rw [cycle_append hdvd] at hcycle ⊢
      obtain ⟨hgs, hg'⟩ := List.forall_mem_append.mp hgs
      obtain ⟨hcycle, hnonzero⟩ := List.forall_mem_append.mp hcycle
      have hg' : g'.length = n := hg' g' List.mem_cons_self
      have hne : ‖Vec.point n g'‖ ≠ 0 := by
        rw [← Vec.norm_eq hg', Ne, Vec.norm_eq_zero_iff]
        exact hnonzero g' List.mem_cons_self
      have hgg : Vec.dot g' g' = ‖Vec.point n g'‖ ^ 2 := Vec.dot_self_eq hg'
      have hs := Method.length_conjugateTo m gs.length hg' (h.length_eq hgs)
      rw [point_conjugateTo_some hg hs hdvd (by rw [hgg]; positivity), hgg, ih hgs hg' hcycle,
        add_multiple (pow_ne_zero 2 hne)]
      simp [weighted]

end Strategy

/-! ### Stages -/

variable {n : ℕ} {opt : Options ℝ} {history : List (Stage ℝ (Method.conjugateGradient.Memory ℝ))}
  {σ : Stage ℝ (Method.conjugateGradient.Memory ℝ)} {t u : Transcript ℝ}

/-- What is known of a stage after the stages of its history. -/
structure Stage.Conjugated (n : ℕ) (history : List (Stage ℝ (Method.conjugateGradient.Memory ℝ)))
    (σ : Stage ℝ (Method.conjugateGradient.Memory ℝ)) : Prop extends σ.Shaped n where
  /-- The stages are numbered. -/
  number : σ.k = history.length
  /-- Their gradients have an element for each coordinate. -/
  gradients : ∀ τ ∈ history, τ.it.g.length = n
  /-- The method recalls these gradients. -/
  recalls : Strategy.Recalls (max n 1) (history.map (·.it.g)) σ.memory

namespace Stage.Conjugated

/-- **An iteration adds a stage to the history of the next one.** -/
theorem step (hσ : σ.Conjugated n history)
    {i : Iteration ℝ (Method.conjugateGradient.Memory ℝ)} {m : Method.conjugateGradient.Memory ℝ}
    (h : Run.Iterates (Method.conjugateGradient.strategy n) opt σ t (.ok i))
    (hu : Run.Ends ((Method.conjugateGradient.strategy n).absorb σ.it i.next i.memory) u (.ok m)) :
    Stage.Conjugated n (history ++ [σ]) ⟨σ.k + 1, i.next, m⟩ := by
  have hshaped := hσ.toShaped.iteration h
  obtain ⟨-, hm⟩ := Run.ends_pure_iff.mp hu
  obtain rfl : m = i.memory := Except.ok.inj hm
  refine ⟨hshaped, by simp [hσ.number], ?_, ?_⟩
  · exact List.forall_mem_append.mpr ⟨hσ.gradients, List.forall_mem_singleton.mpr hσ.gradient⟩
  · obtain ⟨t₁, t₂, step, next, -, -, rfl, -⟩ := Run.ends_iteration_ok_iff.mp h
    have hlater := hσ.recalls.later σ.it.g
    rw [List.length_map, ← hσ.number] at hlater
    rw [List.map_append]
    exact hlater

/-- The direction of a stage, by the gradients of its history. -/
theorem direction_eq (hσ : σ.Conjugated n history) :
    ((Method.conjugateGradient.strategy n).direction σ.k σ.it σ.memory).1 =
      Strategy.conjugateTo (max n 1) (history.map (·.it.g)).length σ.it.g σ.memory := by
  rw [List.length_map, ← hσ.number]
  rfl

/-- The closed form of the direction of a stage. -/
theorem point_direction (hσ : σ.Conjugated n history) (hn : 0 < n)
    (hcycle : ∀ τ ∈ history.drop (n * (history.length / n)), ¬ τ.it.g.IsZero) :
    Vec.point n ((Method.conjugateGradient.strategy n).direction σ.k σ.it σ.memory).1 =
      -(‖Vec.point n σ.it.g‖ ^ 2) • ((history.drop (n * (history.length / n))).map
          fun τ => (‖Vec.point n τ.it.g‖ ^ 2)⁻¹ • Vec.point n τ.it.g).sum -
        Vec.point n σ.it.g := by
  have hrecalled : Strategy.cycle (max n 1) (history.map (·.it.g)) =
      (history.drop (n * (history.length / n))).map (·.it.g) := by
    rw [max_eq_left hn, Strategy.cycle, List.length_map, List.map_drop]
  have hgradients : ∀ g ∈ history.map (·.it.g), g.length = n :=
    List.forall_mem_map.mpr hσ.gradients
  have hnonzero : ∀ g ∈ Strategy.cycle (max n 1) (history.map (·.it.g)), ¬ g.IsZero := by
    rw [hrecalled]
    exact List.forall_mem_map.mpr hcycle
  rw [hσ.direction_eq, hσ.recalls.point_conjugateTo hgradients hσ.gradient hnonzero, hrecalled,
    Strategy.weighted, List.map_map]
  rfl

/-- At a restart the direction of a stage is the negative gradient. -/
theorem direction_of_dvd (hσ : σ.Conjugated n history) (hn : 0 < n) (h : n ∣ history.length) :
    ((Method.conjugateGradient.strategy n).direction σ.k σ.it σ.memory).1 = σ.it.g.neg := by
  have hdvd : max n 1 ∣ σ.k := by
    rwa [max_eq_left (Nat.succ_le_of_lt hn), hσ.number]
  exact Strategy.conjugateTo_of_dvd hdvd

/-- So it is after a stage whose gradient vanishes. -/
theorem direction_of_isZero {τ : Stage ℝ (Method.conjugateGradient.Memory ℝ)}
    (hσ : σ.Conjugated n (history ++ [τ])) (hzero : τ.it.g.IsZero) :
    ((Method.conjugateGradient.strategy n).direction σ.k σ.it σ.memory).1 = σ.it.g.neg := by
  have hrecalls := hσ.recalls
  rw [List.map_append] at hrecalls
  exact hrecalls.conjugateTo_of_isZero hzero

end Stage.Conjugated

namespace Run

variable {x₀ : Vec ℝ} {stages : List (Stage ℝ (Method.conjugateGradient.Memory ℝ))}
  {r : Except (Failure ℝ) (Solution ℝ)}

theorem Minimizes.conjugated
    (h : Minimizes (Method.conjugateGradient.strategy x₀.length) none opt x₀ t stages r) :
    ∀ before τ after, stages = before ++ τ :: after → Stage.Conjugated x₀.length before τ := by
  cases h with
  | unusable _ => exact fun before τ after heq => absurd heq (by simp)
  | empty _ _ => exact fun before τ after heq => absurd heq (by simp)
  | unstarted _ _ _ => exact fun before τ after heq => absurd heq (by simp)
  | descends _ _ h₁ h₂ =>
    have hstart : Stage.Conjugated x₀.length [] ⟨0, _, none⟩ :=
      ⟨Method.shaped_start h₁, rfl, nofun, .start⟩
    exact h₂.forall_history (P := fun _ => True) (Stage.Conjugated x₀.length)
      (fun hσ hi hu _ => hσ.step hi hu) [] hstart fun _ _ => trivial

theorem Minimizes.ne_nil {α S : Type} [Scalar α] {strategy : Strategy α S} {memory : S}
    {opt : Options α} {x₀ : Vec α} {t : Transcript α} {stages : List (Stage α S)}
    {r : Except (Failure α) (Solution α)} (h : Minimizes strategy memory opt x₀ t stages r)
    (hne : stages ≠ []) : x₀ ≠ [] := by
  cases h with
  | unusable _ => exact absurd rfl hne
  | empty _ _ => exact absurd rfl hne
  | unstarted _ hx _ => exact hx
  | descends _ hx _ _ => exact hx

/-- **The directions of conjugate gradients in closed form**, in every run, whatever the objective and
the estimator of gradients. Let a stage have the stages `before` before it, and let `cycle` be those of
them since the last restart. If no gradient vanishes in the cycle, the direction before normalization is
a combination of the gradients of the cycle and of the one at hand; at a restart, and after a gradient
that vanishes, it is the negative gradient. -/
theorem direction_of_recordOn {σ : Type} (problem : Callbacks (StateM σ) ℝ) (opt : Options ℝ)
    (x₀ : Vec ℝ) (s : σ) :
    let n := x₀.length
    let strategy := Strategy.fletcherReeves (max n 1)
    let out := (((conjugateGradient opt x₀).recordOn problem).run s).1
    (∃ stages, Minimizes strategy none opt x₀ out.2 stages out.1) ∧
    ∀ stages, Minimizes strategy none opt x₀ out.2 stages out.1 →
      ∀ before τ after, stages = before ++ τ :: after →
        let k := before.length
        let cycle := before.drop (n * (k / n))
        let direction := (strategy.direction τ.k τ.it τ.memory).1
        τ.k = k ∧ τ.it.g.length = n ∧ direction.length = n ∧
        ((∀ σ ∈ cycle, ¬ σ.it.g.IsZero) → Vec.point n direction =
          -(‖Vec.point n τ.it.g‖ ^ 2) •
              (cycle.map fun σ => (‖Vec.point n σ.it.g‖ ^ 2)⁻¹ • Vec.point n σ.it.g).sum -
            Vec.point n τ.it.g) ∧
        (n ∣ k → direction = τ.it.g.neg) ∧
        ∀ earlier last, before = earlier ++ [last] → last.it.g.IsZero →
          direction = τ.it.g.neg := by
  intro n strategy out
  have hends : Ends (conjugateGradient opt x₀) out.2 out.1 := ends_recordOn _ s
  refine ⟨ends_minimize_iff.mp hends, fun stages hrun before τ after heq => ?_⟩
  intro k cycle direction
  have hτ : Stage.Conjugated n before τ := hrun.conjugated before τ after heq
  have hn : 0 < n := List.length_pos_iff.mpr (hrun.ne_nil (by rw [heq]; simp))
  refine ⟨hτ.number, hτ.gradient, (hτ.memory.direction τ.k hτ.gradient).1, hτ.point_direction hn,
    hτ.direction_of_dvd hn, ?_⟩
  rintro earlier last rfl hzero
  exact hτ.direction_of_isZero hzero

end Run

end Optimum
