import Optimum.Proofs.Descent.Calls
import Optimum.Proofs.Descent.Decrease
import Optimum.Proofs.Difference
import Optimum.Proofs.Vector.Euclidean

/-!
# Runs are local

In exact arithmetic an iteration looks at most one unit away from its iterate: its direction has unit
length, unless it is zero, and the search stays between no step and the full step. So after `k`
iterations a run has evaluated its objective within a distance of `k` from its starting point, apart
from what an estimator of gradients does around an iterate; the difference quotients go as far as
their step.

Distances are over the elements that both vectors have. That matters where an update rule changes the
number of rows of the approximation, which it can do to a single row: a direction that is longer than
the point moves it by less than its length, and nothing else of this changes.

## What is proved

* `Call.Near` is what a call may evaluate in iteration `k`, and `Transcript.Near.append` the rule for
  parts in sequence.
* `Run.near_of_iterates` and `Stage.Near.iteration` are the step lemmas, `Run.Descends.near` and
  `Run.Descends.advances` the inductions, and `Run.Minimizes.near` and `Run.Minimizes.advances` say
  the same of whole runs.
* `Run.Minimizes.within`: when directions are not longer than the point.
-/

namespace Optimum

open Scalar

/-! ### Difference quotients -/

namespace Plan

/-- What holds of the exchanges of each plan holds of all. -/
theorem forall_of_ends_mapM {α ι : Type} {quotient : ι → Plan α α} {is : List ι}
    {P : Dialogue.Exchange (fun _ : Vec α => α) → Prop}
    (hquotient : ∀ i ∈ is, ∀ u v, (quotient i).Ends u v → ∀ e ∈ u, P e)
    {u : Dialogue.Record fun _ : Vec α => α} {g : Vec α} (h : (is.mapM quotient).Ends u g) :
    ∀ e ∈ u, P e := by
  induction is generalizing u g with
  | nil =>
    obtain ⟨rfl, -⟩ := Dialogue.ends_done_iff.mp h
    exact nofun
  | cons i is ih =>
    obtain ⟨u₁, v, u₂, g', h₁, h₂, rfl, -⟩ := ends_mapM_cons_iff.mp h
    obtain ⟨hi, his⟩ := List.forall_mem_cons.mp hquotient
    exact List.forall_mem_append.mpr ⟨hi u₁ v h₁, ih his h₂⟩

variable {x y : Vec ℝ} {h : ℝ} {u : Dialogue.Record fun _ : Vec ℝ => ℝ} {g : Vec ℝ}

/-- A point that differs from `x` in one coordinate is as far away as the coordinate is changed. -/
theorem distance_of_mem_perturbed {f : ℝ → ℝ} (hf : ∀ v, |f v - v| = |h|)
    (hy : y ∈ perturbed f x) : y.length = x.length ∧ Vec.distance y x = |h| := by
  obtain ⟨i, hi, rfl⟩ := List.mem_mapIdx.mp hy
  exact ⟨List.length_set, (Vec.distance_set hi _).trans (hf _)⟩

/-- **Difference quotients evaluate the objective within their step.** -/
theorem distance_of_ends_differences (hend : (forward x h).Ends u g ∨ (central x h).Ends u g) :
    ∀ e ∈ u, e.question.length = x.length ∧ Vec.distance e.question x ≤ |h| := by
  have forth : ∀ {y}, y ∈ perturbed (· + h) x → y.length = x.length ∧ Vec.distance y x ≤ |h| :=
    fun hy => (distance_of_mem_perturbed (fun v => by rw [add_sub_cancel_left]) hy).imp_right
      le_of_eq
  have back : ∀ {y}, y ∈ perturbed (· - h) x → y.length = x.length ∧ Vec.distance y x ≤ |h| :=
    fun hy => (distance_of_mem_perturbed (fun v => by rw [sub_sub_cancel_left, abs_neg]) hy).imp_right
      le_of_eq
  rcases hend with hend | hend
  · obtain ⟨f₀, u', rfl, hrest⟩ := Dialogue.ends_ask_iff.mp hend
    have hx : Vec.distance x x ≤ |h| := by
      rw [Vec.distance_self]
      exact abs_nonneg h
    refine List.forall_mem_cons.mpr ⟨⟨rfl, hx⟩, forall_of_ends_mapM ?_ hrest⟩
    intro y hy w v hw
    obtain ⟨f₁, w', rfl, hw'⟩ := Dialogue.ends_ask_iff.mp hw
    obtain ⟨rfl, -⟩ := Dialogue.ends_done_iff.mp hw'
    exact List.forall_mem_singleton.mpr (forth hy)
  · refine forall_of_ends_mapM ?_ hend
    intro ⟨y, z⟩ hyz w v hw
    obtain ⟨hy, hz⟩ := List.of_mem_zip hyz
    obtain ⟨f₁, w₁, rfl, h₁⟩ := Dialogue.ends_ask_iff.mp hw
    obtain ⟨f₂, w₂, rfl, h₂⟩ := Dialogue.ends_ask_iff.mp h₁
    obtain ⟨rfl, -⟩ := Dialogue.ends_done_iff.mp h₂
    exact List.forall_mem_cons.mpr ⟨forth hy, List.forall_mem_singleton.mpr (back hz)⟩

end Plan

/-! ### Calls near the starting point -/

namespace Call

/-- A call of iteration number `k` evaluates the objective within a distance of `k` from `x₀`;
difference quotients, whose step is `δ`, evaluate it within `k + δ`. The evaluation of the starting
point is number zero. -/
def Near (x₀ : Vec ℝ) (δ : ℝ) (k : ℕ) : Call ℝ → Prop
  | value x _ => Vec.distance x x₀ ≤ k
  | trial x _ => Vec.distance x x₀ ≤ k
  | estimate x h plan evaluations _ => Vec.distance x x₀ ≤ k ∧
    (plan = .forward x h ∨ plan = .central x h →
      ∀ e ∈ evaluations, Vec.distance e.question x₀ ≤ k + δ)
  | _ => True

/-- Calls of which the first is of iteration number `k`: a call that makes a point an iterate is the
last one of its iteration. -/
def AllNear (x₀ : Vec ℝ) (δ : ℝ) : ℕ → List (Call ℝ) → Prop
  | _, [] => True
  | k, c :: calls => c.Near x₀ δ k ∧ AllNear x₀ δ (k + c.settles.toNat) calls

variable {k : ℕ} {x₀ : Vec ℝ} {δ : ℝ} {calls calls' before after : List (Call ℝ)} {c : Call ℝ}

theorem countP_cons_toNat (c : Call ℝ) (calls : List (Call ℝ)) :
    (c :: calls).countP settles = c.settles.toNat + calls.countP settles := by
  rw [List.countP_cons]
  cases c.settles <;> simp [Nat.add_comm]

theorem AllNear.append (h : AllNear x₀ δ k calls)
    (h' : AllNear x₀ δ (k + calls.countP settles) calls') :
    AllNear x₀ δ k (calls ++ calls') := by
  induction calls generalizing k with
  | nil => exact h'
  | cons c calls ih =>
    rw [countP_cons_toNat, ← Nat.add_assoc] at h'
    exact ⟨h.1, ih h.2 h'⟩

/-- The iterations before a call are as many as the calls before it that make a point an iterate. -/
theorem AllNear.near (h : AllNear x₀ δ k (before ++ c :: after)) :
    c.Near x₀ δ (k + before.countP settles) := by
  induction before generalizing k with
  | nil => exact h.1
  | cons b before ih =>
    rw [countP_cons_toNat, ← Nat.add_assoc]
    exact ih h.2

/-- A call that is near in one iteration is near in a later one. -/
theorem Near.mono {k' : ℕ} (h : c.Near x₀ δ k) (hk : k ≤ k') : c.Near x₀ δ k' := by
  have hk : (k : ℝ) ≤ k' := Nat.cast_le.mpr hk
  cases c with
  | value x v => exact h.trans hk
  | trial x v => exact h.trans hk
  | estimate x h' plan u g =>
    exact ⟨h.1.trans hk, fun hplan e he => (h.2 hplan e he).trans (by linarith)⟩
  | _ => trivial

theorem AllNear.of_forall (h : ∀ c ∈ calls, c.Near x₀ δ k) : AllNear x₀ δ k calls := by
  induction calls generalizing k with
  | nil => trivial
  | cons c calls ih =>
    obtain ⟨hc, hcalls⟩ := List.forall_mem_cons.mp h
    exact ⟨hc, ih fun c hmem => (hcalls c hmem).mono (Nat.le_add_right _ _)⟩

end Call

/-- Read as calls from phase `p`, a transcript that begins in iteration number `k` is near `x₀`. -/
def Transcript.Near (x₀ : Vec ℝ) (δ : ℝ) (p : Phase ℝ) (k : ℕ) (t : Transcript ℝ) : Prop :=
  ∀ calls, (∃ q, Phase.Path (fun _ => True) p calls q) → t = calls.flatMap Call.exchanges →
    Call.AllNear x₀ δ k calls

namespace Transcript.Near

variable {β γ : Type} {k m m' : ℕ} {x₀ : Vec ℝ} {δ : ℝ} {p p' q : Phase ℝ} {t t' : Transcript ℝ}

/-- **Parts in sequence.** -/
theorem append {b : β} {r : Except (Failure ℝ) γ} (h : t.Near x₀ δ p k)
    (h' : t'.Near x₀ δ p' (k + m)) (hcalls : Accounts (fun _ => True) p p' m t (.ok b))
    (hcalls' : Accounts (fun _ => True) p' q m' t' r) : (t ++ t').Near x₀ δ p k := by
  obtain ⟨calls, ht, rfl, hresult⟩ := hcalls
  obtain ⟨calls', ht', -, hconcludes⟩ := hcalls'
  have hpath : Phase.Path (fun _ => True) p calls p' := by
    cases hresult with
    | ok hpath _ => exact hpath
  obtain ⟨q', hpath'⟩ := hconcludes.exists_path
  rintro all ⟨q'', hall⟩ heq
  have hread : all = calls ++ calls' :=
    hall.eq_of_exchanges (hpath.append hpath') (by rw [← heq, List.flatMap_append, ht, ht'])
  rw [hread]
  exact (h calls ⟨p', hpath⟩ ht).append (h' calls' ⟨q', hpath'⟩ ht')

/-- A part that asks for no gradient is near if its evaluations are. -/
theorem of_evaluations (hgradient : t.iterates = [])
    (hnear : ∀ e ∈ t.evaluations, Vec.distance e.1 x₀ ≤ k) : t.Near x₀ δ p k := by
  rintro calls - rfl
  refine .of_forall fun c hc => ?_
  have hmem : ∀ x ∈ c.exchanges, x ∈ calls.flatMap Call.exchanges := fun x hx =>
    List.mem_flatMap.mpr ⟨c, hc, hx⟩
  cases c with
  | value x v => exact hnear (x, v) (List.mem_filterMap.mpr ⟨_, hmem _ List.mem_cons_self, rfl⟩)
  | trial x v => exact hnear (x, v) (List.mem_filterMap.mpr ⟨_, hmem _ List.mem_cons_self, rfl⟩)
  | estimate x h plan u g =>
    cases List.filterMap_eq_nil_iff.mp hgradient _ (hmem _ List.mem_cons_self)
  | _ => trivial

end Transcript.Near

/-! ### Steps of a line search -/

namespace Run

variable {opt : Options ℝ} {x s : Vec ℝ} {f₀ : ℝ} {t : Transcript ℝ}

/-- A line search evaluates the objective between no step and the full step. -/
theorem exists_alpha_of_ends_lineSearch {r : Except (Failure ℝ) (Step ℝ)} (htol : 0 < opt.lineTol)
    (h : Ends (lineSearch opt x s f₀) t r) :
    ∀ e ∈ t.evaluations, ∃ a, 0 ≤ a ∧ a ≤ 1 ∧ e.1 = x.along s a := by
  have inside : ∀ {a}, (boundedBrent 0 1 opt.lineTol (opt.lineMaxFev - 1)).Asks a →
      0 ≤ a ∧ a ≤ 1 := fun ha =>
    (Search.mem_Ioo_of_asks_boundedBrent one_pos htol ha).imp le_of_lt le_of_lt
  have online : ∀ {u : Dialogue.Record fun _ : ℝ => ℝ},
      (∀ e ∈ u, (boundedBrent 0 1 opt.lineTol (opt.lineMaxFev - 1)).Asks e.question) →
      ∀ e ∈ (onLine x s u).evaluations, ∃ a, 0 ≤ a ∧ a ≤ 1 ∧ e.1 = x.along s a := by
    intro u hu e he
    rw [evaluations_onLine] at he
    obtain ⟨e', he', rfl⟩ := List.mem_map.mp he
    exact ⟨e'.question, (inside (hu e' he')).1, (inside (hu e' he')).2, rfl⟩
  have single : ∀ {a v}, 0 ≤ a ∧ a ≤ 1 →
      ∀ e ∈ Transcript.evaluations [⟨.objective (x.along s a), v⟩],
        ∃ a, 0 ≤ a ∧ a ≤ 1 ∧ e.1 = x.along s a := by
    intro a v ha
    exact List.forall_mem_singleton.mpr ⟨a, ha.1, ha.2, rfl⟩
  have full : ∀ {u found v},
      (boundedBrent 0 1 opt.lineTol (opt.lineMaxFev - 1)).Ends u found →
      ∀ e ∈ Transcript.evaluations (onLine x s u ++ Note.written found.notes ++
        [⟨.objective (x.along s 1), v⟩]), ∃ a, 0 ≤ a ∧ a ≤ 1 ∧ e.1 = x.along s a := by
    intro u found v hu
    rw [Transcript.evaluations_append, Transcript.evaluations_append,
      Transcript.evaluations_written, List.append_nil]
    exact List.forall_mem_append.mpr ⟨online hu.asks, single ⟨zero_le_one, le_rfl⟩⟩
  cases r with
  | ok step =>
    obtain ⟨u, found, v, hu, -, -, -, rfl⟩ := ends_lineSearch_ok_iff.mp h
    rw [Transcript.evaluations_append, Transcript.evaluations_written, List.append_nil]
    exact full hu
  | error e =>
    rcases ends_lineSearch_error_iff.mp h with h | ⟨u, found, v, hu, -, -, -, rfl⟩
    · obtain ⟨u, a, next, v, hu, -, -, -, rfl⟩ := ends_search_error_iff.mp h
      obtain ⟨hasked, hask⟩ := hu.asks
      rw [Transcript.evaluations_append]
      exact List.forall_mem_append.mpr ⟨online hasked, single (inside (hask a (Or.inl rfl)))⟩
    · exact full hu

/-- So is the step that it takes. -/
theorem alpha_of_ends_lineSearch {step : Step ℝ} (htol : 0 < opt.lineTol)
    (h : Ends (lineSearch opt x s f₀) t (.ok step)) : 0 ≤ step.alpha ∧ step.alpha ≤ 1 := by
  obtain ⟨u, found, v, hu, -, -, rfl, -⟩ := ends_lineSearch_ok_iff.mp h
  obtain ⟨e, he, hbest⟩ := List.mem_map.mp (Search.best_mem_of_ends_boundedBrent hu)
  obtain ⟨hlo, hhi⟩ := Search.mem_Ioo_of_asks_boundedBrent one_pos htol (hu.asks e he)
  rcases Step.choose_cases found.best f₀ v with heq | heq | heq <;> rw [heq]
  · rw [← hbest]
    exact ⟨hlo.le, hhi.le⟩
  · exact ⟨le_rfl, zero_le_one⟩
  · exact ⟨zero_le_one, le_rfl⟩

/-- It is the full step, if the objective falls all along the line. -/
theorem alpha_eq_one_of_ends_lineSearch {f : Vec ℝ → ℝ} {step : Step ℝ} (htol : 0 < opt.lineTol)
    (h : Ends (lineSearch opt x s f₀) t (.ok step)) (hf : t.ObjectiveIs f)
    (hfalls : ∀ a < 1, f (x.along s 1) < f (x.along s a)) (hfull : f (x.along s 1) < f₀) :
    step.alpha = 1 := by
  obtain ⟨a, -, ha, rfl⟩ := exists_choose_of_ends_lineSearch htol h hf
  rw [Step.choose_of_lt (hfalls a ha) hfull]

/-- The unit direction of an iteration is zero if the direction is, and of unit length otherwise. -/
theorem norm_unitDirection {S : Type} (strategy : Strategy ℝ S) (k : ℕ) (it : Iterate ℝ)
    (memory : S) :
    (strategy.direction k it memory).1.IsZero ∧ (unitDirection strategy k it memory).IsZero ∨
      ¬ (strategy.direction k it memory).1.IsZero ∧
        Vec.norm (unitDirection strategy k it memory) = 1 := by
  by_cases hzero : (strategy.direction k it memory).1.IsZero
  · left
    rw [unitDirection, Vec.normalize_of_isZero hzero]
    exact ⟨hzero, hzero⟩
  · exact Or.inr ⟨hzero, Vec.norm_normalize hzero⟩

theorem norm_unitDirection_le {S : Type} (strategy : Strategy ℝ S) (k : ℕ) (it : Iterate ℝ)
    (memory : S) : Vec.norm (unitDirection strategy k it memory) ≤ 1 := by
  rcases norm_unitDirection strategy k it memory with ⟨-, h⟩ | ⟨-, h⟩
  · rw [(Vec.norm_eq_zero_iff _).mpr h]
    exact zero_le_one
  · exact h.le

/-! ### Iterates -/

variable {k : ℕ} {x₀ y : Vec ℝ} {δ : ℝ}

/-- An iterate within `k` of the starting point, with the evaluations around it. -/
theorem near_of_ends_iterate {r : Except (Failure ℝ) (Iterate ℝ)} (hδ : 0 < δ)
    (hnear : Vec.distance y x₀ ≤ k) (h : Ends (iterate y δ) t r) : t.Near x₀ δ .arriving k := by
  obtain ⟨v, plan, u, g, hplan, rfl⟩ : ∃ v plan u g, Dialogue.Ends plan u g ∧
      t = ⟨.objective y, v⟩ :: ⟨.gradient y δ, plan⟩ :: ofPlan u := by
    cases r with
    | ok it =>
      obtain ⟨v, t', g, -, hg, rfl, -⟩ := ends_iterate_ok_iff.mp h
      obtain ⟨plan, u, g', hu, rfl, -⟩ := ends_finiteGradient_iff.mp hg
      exact ⟨v, plan, u, g', hu, rfl⟩
    | error e =>
      rcases ends_iterate_error_iff.mp h with ⟨v, hv, -⟩ | ⟨v, t', -, hg, rfl⟩
      · cases hv
      · obtain ⟨plan, u, g', hu, rfl, -⟩ := ends_finiteGradient_iff.mp hg
        exact ⟨v, plan, u, g', hu, rfl⟩
  rintro calls ⟨q, hpath⟩ heq
  have hpath' : Phase.Path (fun _ => True) .arriving [.value y v, .estimate y δ plan u g]
      .searching := .cons (.value trivial) (.cons (.estimate hplan) .nil)
  rw [hpath.eq_of_exchanges hpath' (by simpa [Call.exchanges] using heq.symm)]
  refine .of_forall (List.forall_mem_cons.mpr ⟨hnear, List.forall_mem_singleton.mpr
    ⟨hnear, fun hdifferences e he => ?_⟩⟩)
  have hends : (Plan.forward y δ).Ends u g ∨ (Plan.central y δ).Ends u g := by
    rcases hdifferences with rfl | rfl
    exacts [Or.inl hplan, Or.inr hplan]
  obtain ⟨hlen, hstep⟩ := Plan.distance_of_ends_differences hends e he
  have htriangle : Vec.distance e.question x₀ ≤ Vec.distance e.question y + Vec.distance y x₀ :=
    Vec.distance_triangle (hlen ▸ Nat.min_le_left _ _)
  rw [abs_of_pos hδ] at hstep
  linarith

end Run

/-! ### Iterations -/

/-- What the monitor is told of the step from `x` along a unit direction `s`, which may be zero. -/
structure Progress.Along (x s : Vec ℝ) (p : Progress ℝ) : Prop where
  /-- The step does not go back. -/
  nonneg : 0 ≤ p.alpha
  /-- It does not go beyond the full step. -/
  le_one : p.alpha ≤ 1
  /-- It is no longer than the parameter says. -/
  bounded : p.stepSize ≤ p.alpha
  /-- It is as long, if all of the direction is taken. -/
  moves : s.length ≤ x.length → ¬ s.IsZero → p.stepSize = p.alpha
  /-- Along zero there is no step. -/
  stays : s.IsZero → p.stepSize = 0

variable {method : Method} {opt : Options ℝ} {n : ℕ} {x₀ : Vec ℝ}
  {σ : Stage ℝ (method.Memory ℝ)} {t : Transcript ℝ}

/-- What is known when an iteration begins: the iterate is no further from the starting point than
the iterations made. -/
def Stage.Near (x₀ : Vec ℝ) (σ : Stage ℝ (method.Memory ℝ)) : Prop :=
  Vec.distance σ.it.x x₀ ≤ σ.k

namespace Stage.Near

/-- The points that an iteration looks at are within one unit of its iterate. -/
theorem distance_along (hσ : σ.Near x₀) {a : ℝ} (ha : 0 ≤ a ∧ a ≤ 1) :
    Vec.distance (σ.it.x.along (Run.unitDirection (method.strategy n) σ.k σ.it σ.memory) a) x₀ ≤
      (σ.k + 1 : ℕ) := by
  have hσ : Vec.distance σ.it.x x₀ ≤ σ.k := hσ
  let s := Run.unitDirection (method.strategy n) σ.k σ.it σ.memory
  have hlen : min (σ.it.x.along s a).length x₀.length ≤ σ.it.x.length := by
    rw [Vec.length_along]
    exact (Nat.min_le_left _ _).trans (Nat.min_le_left _ _)
  have hnorm : Vec.norm (s.take σ.it.x.length) ≤ 1 :=
    (Vec.norm_take_le s _).trans (Run.norm_unitDirection_le _ _ _ _)
  have hone : |a| * Vec.norm (s.take σ.it.x.length) ≤ 1 := by
    rw [abs_of_nonneg ha.1]
    exact mul_le_one₀ ha.2 (Vec.norm_nonneg _) hnorm
  calc Vec.distance (σ.it.x.along s a) x₀
      ≤ Vec.distance (σ.it.x.along s a) σ.it.x + Vec.distance σ.it.x x₀ :=
        Vec.distance_triangle hlen
    _ = |a| * Vec.norm (s.take σ.it.x.length) + Vec.distance σ.it.x x₀ := by
        rw [Vec.distance_along]
    _ ≤ 1 + σ.k := add_le_add hone hσ
    _ = (σ.k + 1 : ℕ) := by rw [Nat.cast_succ, add_comm]

/-- **An iteration moves by at most one unit**, and tells the monitor how far it moved. -/
theorem iteration {i : Iteration ℝ (method.Memory ℝ)} (hσ : σ.Near x₀) (htol : 0 < opt.lineTol)
    (h : Run.Iterates (method.strategy n) opt σ t (.ok i)) :
    Vec.distance i.next.x x₀ ≤ (σ.k + 1 : ℕ) ∧
      i.progress.Along σ.it.x (Run.unitDirection (method.strategy n) σ.k σ.it σ.memory) := by
  obtain ⟨t₁, t₂, step, next, h₁, h₂, rfl, rfl⟩ := Run.ends_iteration_ok_iff.mp h
  have halpha := Run.alpha_of_ends_lineSearch htol h₁
  obtain ⟨hx, -⟩ := Run.shape_of_ends_iterate h₂
  let s := Run.unitDirection (method.strategy n) σ.k σ.it σ.memory
  have hsize : Vec.distance next.x σ.it.x = step.alpha * Vec.norm (s.take σ.it.x.length) := by
    rw [hx, Vec.distance_along, abs_of_nonneg halpha.1]
  have hnorm : Vec.norm (s.take σ.it.x.length) ≤ 1 :=
    (Vec.norm_take_le s _).trans (Run.norm_unitDirection_le _ _ _ _)
  refine ⟨?_, halpha.1, halpha.2, ?_, fun hlen hs => ?_, fun hs => ?_⟩
  · change Vec.distance next.x x₀ ≤ _
    rw [hx]
    exact hσ.distance_along halpha
  · exact hsize.trans_le (mul_le_of_le_one_right halpha.1 hnorm)
  · refine hsize.trans ?_
    rw [List.take_of_length_le hlen]
    rcases Run.norm_unitDirection (method.strategy n) σ.k σ.it σ.memory with ⟨-, h⟩ | ⟨-, h⟩
    · exact absurd h hs
    · rw [h, mul_one]
      rfl
  · refine hsize.trans ?_
    have hzero : Vec.IsZero (s.take σ.it.x.length) := fun v hv => hs v (List.mem_of_mem_take hv)
    rw [(Vec.norm_eq_zero_iff _).mpr hzero, mul_zero]

end Stage.Near

namespace Run

/-- **The evaluations of an iteration are near.** -/
theorem near_of_iterates {r : Except (Failure ℝ) (Iteration ℝ (method.Memory ℝ))}
    (hopt : opt.Usable) (hσ : σ.Near x₀) (h : Iterates (method.strategy n) opt σ t r) :
    t.Near x₀ opt.fdStep .searching (σ.k + 1) := by
  have hsearch : ∀ {t' r'}, Ends (lineSearch opt σ.it.x
      (unitDirection (method.strategy n) σ.k σ.it σ.memory) σ.it.f) t' r' →
      t'.Near x₀ opt.fdStep .searching (σ.k + 1) := by
    intro t' r' h'
    refine .of_evaluations (views_of_ends_lineSearch h').1 fun e he => ?_
    obtain ⟨a, ha₀, ha₁, hea⟩ := exists_alpha_of_ends_lineSearch hopt.lineTol h' e he
    rw [hea]
    exact hσ.distance_along ⟨ha₀, ha₁⟩
  have hboth : ∀ {t₁ t₂ step r'}, Ends (lineSearch opt σ.it.x
      (unitDirection (method.strategy n) σ.k σ.it σ.memory) σ.it.f) t₁ (.ok step) →
      Ends (iterate (σ.it.x.along (unitDirection (method.strategy n) σ.k σ.it σ.memory) step.alpha)
        opt.fdStep) t₂ r' →
      (t₁ ++ t₂).Near x₀ opt.fdStep .searching (σ.k + 1) := by
    intro t₁ t₂ step r' h₁ h₂
    have halpha := alpha_of_ends_lineSearch hopt.lineTol h₁
    exact (hsearch h₁).append
      (near_of_ends_iterate hopt.fdStep.1 (hσ.distance_along halpha) h₂)
      (accounts_of_ends_lineSearch (fun _ => trivial) h₁) (accounts_of_ends_iterate trivial h₂)
  cases r with
  | ok i =>
    obtain ⟨t₁, t₂, step, next, h₁, h₂, rfl, rfl⟩ := ends_iteration_ok_iff.mp h
    exact (hboth h₁ h₂).append (.of_evaluations rfl nofun)
      ((accounts_of_ends_lineSearch (fun _ => trivial) h₁).append
        (accounts_of_ends_iterate trivial h₂)) (accounts_announced _)
  | error e =>
    rcases ends_iteration_error_iff.mp h with h₁ | ⟨t₁, t₂, step, h₁, h₂, rfl⟩
    · exact hsearch h₁
    · exact hboth h₁ h₂

/-! ### Whole runs -/

/-- **The evaluations of a descent are near.** -/
theorem Descends.near {left : ℕ} {stages : List (Stage ℝ (method.Memory ℝ))}
    {r : Except (Failure ℝ) (Solution ℝ)} (hopt : opt.Usable)
    (h : Descends (method.strategy n) opt left σ t stages r) (hσ : σ.Near x₀) :
    t.Near x₀ opt.fdStep .searching (σ.k + 1) := by
  have hnothing : ∀ {u : Transcript ℝ} {k}, u.iterates = [] → u.evaluations = [] →
      u.Near x₀ opt.fdStep .searching k := by
    intro u k hit hev
    refine .of_evaluations hit ?_
    rw [hev]
    exact nofun
  induction h with
  | fails h₁ => exact near_of_iterates hopt hσ h₁
  | stops h₁ _ =>
    exact (near_of_iterates hopt hσ h₁).append (hnothing (Transcript.iterates_written _)
      (Transcript.evaluations_written _)) (accounts_of_iterates (fun _ => trivial) h₁)
      (accounts_remark (m := .exit _ _) nofun nofun)
  | refuses h₁ _ h₂ =>
    have haside := Method.aside_absorb h₂
    exact (near_of_iterates hopt hσ h₁).append (hnothing haside.iterates haside.evaluations)
      (accounts_of_iterates (fun _ => trivial) h₁) (accounts_of_ends_absorb h₂)
  | goesOn h₁ _ h₂ h₃ ih =>
    have haside := Method.aside_absorb h₂
    obtain ⟨hnext, -⟩ := hσ.iteration hopt.lineTol h₁
    have haccounts := accounts_of_iterates (P := fun _ => True) (fun _ => trivial) h₁
    rw [(views_of_ends_iteration h₁).2] at haccounts
    exact ((near_of_iterates hopt hσ h₁).append (hnothing haside.iterates haside.evaluations)
      haccounts (accounts_of_ends_absorb h₂)).append (ih hnext)
      (haccounts.append (accounts_of_ends_absorb h₂)) (h₃.accounts fun _ _ _ => trivial)

/-- **A descent moves by at most one unit in each iteration.** The monitor is told of the stages, one
after another, and the last one may have failed. -/
theorem Descends.advances {left : ℕ} {stages : List (Stage ℝ (method.Memory ℝ))}
    {r : Except (Failure ℝ) (Solution ℝ)} (hopt : opt.Usable)
    (h : Descends (method.strategy n) opt left σ t stages r) (hσ : σ.Near x₀) :
    t.progress.length ≤ stages.length ∧
      (∀ e ∈ t.progress.zip stages,
        e.1.Along e.2.it.x (unitDirection (method.strategy n) e.2.k e.2.it e.2.memory)) ∧
      ∀ sol, r = .ok sol → Vec.distance sol.x x₀ ≤ sol.iterations := by
  induction h with
  | fails h₁ =>
    rw [progress_of_ends_iteration_error h₁]
    exact ⟨Nat.zero_le _, nofun, nofun⟩
  | stops h₁ _ =>
    obtain ⟨hnext, halong⟩ := hσ.iteration hopt.lineTol h₁
    rw [Transcript.progress_append, Transcript.progress_written, (views_of_ends_iteration h₁).2]
    refine ⟨le_rfl, List.forall_mem_singleton.mpr halong, fun sol hsol => ?_⟩
    cases hsol
    exact hnext
  | refuses h₁ _ h₂ =>
    obtain ⟨-, halong⟩ := hσ.iteration hopt.lineTol h₁
    rw [Transcript.progress_append, (Method.aside_absorb h₂).progress,
      (views_of_ends_iteration h₁).2]
    exact ⟨le_rfl, List.forall_mem_singleton.mpr halong, nofun⟩
  | goesOn h₁ _ h₂ _ ih =>
    obtain ⟨hnext, halong⟩ := hσ.iteration hopt.lineTol h₁
    obtain ⟨hlen, hrest, hsol⟩ := ih hnext
    rw [Transcript.progress_append, Transcript.progress_append, (Method.aside_absorb h₂).progress,
      (views_of_ends_iteration h₁).2]
    exact ⟨Nat.succ_le_succ hlen, List.forall_mem_cons.mpr ⟨halong, hrest⟩, hsol⟩

section Minimizes

variable {memory : method.Memory ℝ} {stages : List (Stage ℝ (method.Memory ℝ))}
  {r : Except (Failure ℝ) (Solution ℝ)}

/-- A run begins at its starting point. -/
theorem near_start {it : Iterate ℝ} {h : ℝ} (hend : Ends (iterate x₀ h) t (.ok it)) :
    (⟨0, it, memory⟩ : Stage ℝ (method.Memory ℝ)).Near x₀ := by
  change Vec.distance it.x x₀ ≤ _
  rw [(shape_of_ends_iterate hend).1, Vec.distance_self]
  exact Nat.cast_nonneg _

/-- **A run can be read as calls, and they are near.** -/
theorem Minimizes.near (hopt : opt.fault? = none)
    (h : Minimizes (method.strategy n) memory opt x₀ t stages r) :
    (∃ calls, t.Reads (fun _ => True) calls) ∧ t.Near x₀ opt.fdStep .arriving 0 := by
  have husable := Options.fault?_eq_none_iff.mp hopt
  have hx₀ : Vec.distance x₀ x₀ ≤ (0 : ℕ) := by
    rw [Vec.distance_self]
    exact Nat.cast_nonneg _
  cases h with
  | unusable h => cases hopt.symm.trans h
  | empty _ _ => exact ⟨⟨[], ⟨_, .nil⟩, rfl⟩, .of_evaluations rfl nofun⟩
  | unstarted _ _ h₁ =>
    obtain ⟨calls, ht, -, hcalls⟩ := accounts_of_ends_iterate (P := fun _ => True) trivial h₁
    exact ⟨⟨calls, hcalls.exists_path, ht⟩, near_of_ends_iterate husable.fdStep.1 hx₀ h₁⟩
  | descends _ _ h₁ h₂ =>
    have haccounts := accounts_of_ends_iterate (P := fun _ => True) trivial h₁
    have haccounts' := h₂.accounts (P := fun _ => True) fun _ _ _ => trivial
    obtain ⟨calls, ht, -, hcalls⟩ := haccounts.append haccounts'
    exact ⟨⟨calls, hcalls.exists_path, ht⟩, (near_of_ends_iterate husable.fdStep.1 hx₀ h₁).append
      (h₂.near husable (near_start h₁)) haccounts haccounts'⟩

/-- **A run moves by at most one unit in each iteration.** -/
theorem Minimizes.advances (hopt : opt.fault? = none)
    (h : Minimizes (method.strategy n) memory opt x₀ t stages r) :
    t.progress.length ≤ stages.length ∧
      (∀ e ∈ t.progress.zip stages,
        e.1.Along e.2.it.x (unitDirection (method.strategy n) e.2.k e.2.it e.2.memory)) ∧
      ∀ sol, r = .ok sol → Vec.distance sol.x x₀ ≤ sol.iterations := by
  cases h with
  | unusable h => cases hopt.symm.trans h
  | empty _ _ => exact ⟨le_rfl, nofun, nofun⟩
  | unstarted _ _ h₁ =>
    rw [progress_of_ends_iterate h₁]
    exact ⟨le_rfl, nofun, nofun⟩
  | descends _ _ h₁ h₂ =>
    rw [Transcript.progress_append, progress_of_ends_iterate h₁]
    exact h₂.advances (Options.fault?_eq_none_iff.mp hopt) (near_start h₁)

end Minimizes

end Run

/-! ### Directions within the coordinates -/

/-- The update rule does not answer an approximation of a single row with a change of more rows. -/
def Transcript.AddsNoRows (t : Transcript ℝ) : Prop :=
  ∀ b dx dg db, ⟨.update b dx dg, .ok db⟩ ∈ t → b.height = 1 → db.height ≤ 1

/-- A rule that keeps the shape of the approximation adds no rows. -/
theorem Transcript.KeepsShape.addsNoRows (h : t.KeepsShape) : t.AddsNoRows :=
  fun b dx dg db hx hone => ((h b dx dg db hx).1.trans hone).le

namespace Method

/-- The memory gives directions of no more than `n` elements. -/
def Within : (method : Method) → (n : ℕ) → method.Memory ℝ → Prop
  | steepestDescent, _, _ => True
  | conjugateGradient, _, _ => True
  | quasiNewton, n, b => Mat.height b ≤ n

theorem within_initial (method : Method) (n : ℕ) : method.Within n (method.initial n) := by
  cases method with
  | steepestDescent => trivial
  | conjugateGradient => trivial
  | quasiNewton => exact (Mat.isSquare_identity n).1.le

theorem length_conjugateTo_le (m k : ℕ) (g : Vec ℝ) (last : Option (Strategy.Conjugate ℝ)) :
    (Strategy.conjugateTo m k g last).length ≤ g.length := by
  unfold Strategy.conjugateTo
  cases last with
  | none => simp
  | some c =>
    simp only
    split <;> simp

/-- A direction is no longer than the gradient. -/
theorem Within.length_direction {it : Iterate ℝ} {memory : method.Memory ℝ}
    (h : method.Within it.g.length memory) (k : ℕ) :
    ((method.strategy n).direction k it memory).1.length ≤ it.g.length := by
  cases method with
  | steepestDescent => exact (Vec.length_neg _).le
  | conjugateGradient => exact length_conjugateTo_le _ _ _ _
  | quasiNewton => exact ((Vec.length_neg _).trans (Mat.length_mulVec _ _)).trans_le h

end Method

/-- What is known when an iteration begins, if the update rule adds no rows: directions are no longer
than the point, as the gradient there is as long. -/
structure Stage.Within (σ : Stage ℝ (method.Memory ℝ)) : Prop where
  /-- The length of the gradient estimate. -/
  gradient : σ.it.g.length = σ.it.x.length
  /-- The method gives directions of that length, or shorter. -/
  memory : method.Within σ.it.x.length σ.memory

namespace Stage.Within

theorem length_unitDirection (hσ : σ.Within) :
    (Run.unitDirection (method.strategy n) σ.k σ.it σ.memory).length ≤ σ.it.x.length := by
  obtain ⟨hgradient, hmemory⟩ := hσ
  rw [← hgradient] at hmemory ⊢
  rw [Run.unitDirection, Vec.length_normalize]
  exact hmemory.length_direction σ.k

/-- **So it is when the next one begins.** A point on a line has no more elements than the direction,
so a shorter direction makes for a shorter point. -/
theorem iteration {i : Iteration ℝ (method.Memory ℝ)} {u : Transcript ℝ} {m : method.Memory ℝ}
    (hσ : σ.Within) (h : Run.Iterates (method.strategy n) opt σ t (.ok i))
    (hu : Run.Ends ((method.strategy n).absorb σ.it i.next i.memory) u (.ok m))
    (hrows : u.AddsNoRows) : (⟨σ.k + 1, i.next, m⟩ : Stage ℝ (method.Memory ℝ)).Within := by
  have hlen := hσ.length_unitDirection (n := n)
  obtain ⟨t₁, t₂, step, next, -, h₂, rfl, -⟩ := Run.ends_iteration_ok_iff.mp h
  obtain ⟨hx, hg⟩ := Run.shape_of_ends_iterate h₂
  rw [← hx] at hg
  refine ⟨hg, ?_⟩
  cases method with
  | steepestDescent => trivial
  | conjugateGradient => trivial
  | quasiNewton =>
    have hpoint : next.x.length = Mat.height σ.memory := by
      have hdir : (Run.unitDirection (Method.quasiNewton.strategy n) σ.k σ.it σ.memory).length =
          Mat.height σ.memory := (Vec.length_normalize _).trans
        ((Vec.length_neg _).trans (Mat.length_mulVec _ _))
      rw [hx, Vec.length_along, Nat.min_eq_right hlen, hdir]
    change Mat.height m ≤ next.x.length
    rw [hpoint]
    obtain ⟨answer, rfl, hm⟩ := Strategy.ends_absorb_quasiNewton_iff.mp hu
    rcases Strategy.learned_eq_ok hm.symm with ⟨db, rfl, rfl⟩ | ⟨c, -, rfl⟩
    · rcases Mat.height_add σ.memory db with heq | ⟨hone, heq⟩
      · exact heq.le
      · exact (heq.trans_le (hrows _ _ _ _ List.mem_cons_self hone)).trans hone.ge
    · exact le_rfl

end Stage.Within

/-- **Directions are no longer than the point**, if the update rule adds no rows. -/
theorem Run.Minimizes.within {stages : List (Stage ℝ (method.Memory ℝ))}
    {r : Except (Failure ℝ) (Solution ℝ)}
    (h : Run.Minimizes (method.strategy n) (method.initial x₀.length) opt x₀ t stages r)
    (hrows : t.AddsNoRows) : ∀ τ ∈ stages, τ.Within := by
  refine h.forall_stages_of_changes (fun h₁ => ?_)
    (fun hτ hi hu hchanges => hτ.iteration hi hu hchanges) hrows
  obtain ⟨hx, hg⟩ := Run.shape_of_ends_iterate h₁
  rw [← hx] at hg ⊢
  exact ⟨hg, method.within_initial _⟩

/-! ### Local runs -/

/-- What a run hands to a line search at a stage, and what comes of it. -/
structure Stage.Directed (opt : Options ℝ) (n : ℕ) (σ : Stage ℝ (method.Memory ℝ)) : Prop where
  /-- The direction is zero if the one that the method chose is, and of unit length otherwise. -/
  unit :
    ((method.strategy n).direction σ.k σ.it σ.memory).1.IsZero ∧
        (Run.unitDirection (method.strategy n) σ.k σ.it σ.memory).IsZero ∨
      ¬ ((method.strategy n).direction σ.k σ.it σ.memory).1.IsZero ∧
        Vec.norm (Run.unitDirection (method.strategy n) σ.k σ.it σ.memory) = 1
  /-- The step found along it is between no step and the full step. -/
  alpha : ∀ t step, Run.Ends (Run.lineSearch opt σ.it.x
    (Run.unitDirection (method.strategy n) σ.k σ.it σ.memory) σ.it.f) t (.ok step) →
    0 ≤ step.alpha ∧ step.alpha ≤ 1

/-- What makes a run local: the stages that it passes are `stages`. -/
structure Transcript.Local (method : Method) (opt : Options ℝ) (x₀ : Vec ℝ) (t : Transcript ℝ)
    (stages : List (Stage ℝ (method.Memory ℝ))) (r : Except (Failure ℝ) (Solution ℝ)) : Prop where
  /-- Each line search is along a unit vector, or along zero. -/
  directed : ∀ τ ∈ stages, τ.Directed opt x₀.length
  /-- The monitor is told of the stages in order; the last one may have failed. -/
  reported : t.progress.length ≤ stages.length
  /-- It is told how far the iteration moved. -/
  along : ∀ e ∈ t.progress.zip stages,
    e.1.Along e.2.it.x (Run.unitDirection (method.strategy x₀.length) e.2.k e.2.it e.2.memory)
  /-- It moved as far as the parameter says, if the update rule of a quasi-Newton method adds no
  rows. -/
  moves : (method = .quasiNewton → t.AddsNoRows) → ∀ e ∈ t.progress.zip stages,
    ¬ (Run.unitDirection (method.strategy x₀.length) e.2.k e.2.it e.2.memory).IsZero →
      e.1.stepSize = e.1.alpha
  /-- Read as calls, in the one way that there is, the run evaluates its objective near `x₀`. -/
  near : ∃ calls, t.Reads (fun _ => True) calls ∧
    (∀ calls', t.Reads (fun _ => True) calls' → calls' = calls) ∧
    ∀ before c after, calls = before ++ c :: after →
      c.Near x₀ opt.fdStep (before.countP Call.settles)
  /-- A result is within as many units as there were iterations. -/
  result : ∀ sol, r = .ok sol → Vec.distance sol.x x₀ ≤ sol.iterations

namespace Method

variable {t : Transcript ℝ} {stages : List (Stage ℝ (method.Memory ℝ))}
  {r : Except (Failure ℝ) (Solution ℝ)}

/-- The update rule need add no rows in a quasi-Newton run only. -/
theorem addsNoRows_of_ends (hend : Run.Ends (method.solve opt x₀) t r)
    (hrows : method = .quasiNewton → t.AddsNoRows) : t.AddsNoRows := fun b dx dg db hx =>
  hrows (eq_quasiNewton_of_update hend hx) b dx dg db hx

/-- **Every run of a method is local.** -/
theorem local_of_minimizes (hopt : opt.fault? = none)
    (h : Run.Minimizes (method.strategy x₀.length) (method.initial x₀.length) opt x₀ t stages r) :
    t.Local method opt x₀ stages r := by
  have husable := Options.fault?_eq_none_iff.mp hopt
  have hend : Run.Ends (method.solve opt x₀) t r := by
    rw [solve_eq]
    exact Run.ends_minimize_iff.mpr ⟨stages, h⟩
  obtain ⟨⟨calls, hreads⟩, hnear⟩ := h.near hopt
  obtain ⟨hreported, halong, hresult⟩ := h.advances hopt
  refine {
    directed := fun τ _ =>
      ⟨Run.norm_unitDirection _ _ _ _, fun _ _ => Run.alpha_of_ends_lineSearch husable.lineTol⟩
    reported := hreported
    along := halong
    moves := fun hrows e he => (halong e he).moves
      (h.within (addsNoRows_of_ends hend hrows) e.2 (List.of_mem_zip he).2).length_unitDirection
    near := ⟨calls, hreads, fun _ => hreads.unique, ?_⟩
    result := hresult }
  rintro before c after rfl
  simpa using (hnear _ hreads.1 hreads.2).near

/-- A result is within as many units of the starting point as there were iterations. -/
theorem distance_of_ends_solve {sol : Solution ℝ}
    (h : Run.Ends (method.solve opt x₀) t (.ok sol)) : Vec.distance sol.x x₀ ≤ sol.iterations := by
  rw [solve_eq] at h
  obtain ⟨stages, h⟩ := Run.ends_minimize_iff.mp h
  have hopt : opt.fault? = none := by
    cases h with
    | descends hopt _ _ _ => exact hopt
  exact (h.advances hopt).2.2 sol rfl

end Method

end Optimum
