import Optimum.Proofs.Descent.Paths

/-!
# What methods remember

The three methods of descent as one family: each has a strategy, an initial memory and a
condition on its memory, under which its directions are as long as the design vector. The
condition holds at the start and is preserved by every iteration, provided that an update rule
that succeeds gives a change of the same shape as the approximation that it is to be added to.

Less is asked of the rule for the points of a run alone. A step along a direction that is too long
passes over its last elements, so the points have the dimension of the starting point as long as
the directions are not too short, and only a single row can be lost in a sum.

## What is proved

* `Stage.Shaped` and `Stage.Full` are the two invariants, each with the step lemmas `iteration` and
  `absorb`.
* `Method.length_of_ends`: the points of a run that gives a result have its dimension.
-/

namespace Optimum

open Scalar

variable {α : Type} [Scalar α]

/-! ### Learning from an update rule -/

namespace Strategy

/-- The approximation after an answer of the update rule. -/
def learned (b : Mat α) : Except (Failure α) (Mat α) → Except (Failure α) (Mat α)
  | .ok db => .ok (b.add db)
  | .error (.illConditionedUpdate _) => .ok b
  | .error failure => .error failure

/-- What is noted of an answer of the update rule. -/
def refusal : Except (Failure α) (Mat α) → List (Note α)
  | .error (.illConditionedUpdate curvature) => [.updateSkipped curvature]
  | _ => []

theorem learned_eq_ok {b b' : Mat α} {answer : Except (Failure α) (Mat α)}
    (h : learned b answer = .ok b') :
    (∃ db, answer = .ok db ∧ b' = b.add db) ∨
      ∃ c, answer = .error (.illConditionedUpdate c) ∧ b' = b := by
  unfold learned at h
  split at h
  next db =>
    cases h
    exact Or.inl ⟨db, rfl, rfl⟩
  next c =>
    cases h
    exact Or.inr ⟨c, rfl, rfl⟩
  next => cases h

theorem learned_eq_error {b : Mat α} {answer : Except (Failure α) (Mat α)} {e : Failure α}
    (h : learned b answer = .error e) : answer = .error e := by
  unfold learned at h
  split at h
  next => cases h
  next => cases h
  next => exact congrArg _ (Except.error.inj h)

theorem ends_absorb_quasiNewton_iff {prev next : Iterate α} {b : Mat α} {t : Transcript α}
    {r : Except (Failure α) (Mat α)} :
    Run.Ends (quasiNewton.absorb prev next b) t r ↔ ∃ answer : Except (Failure α) (Mat α),
      t = ⟨.update b (next.x.sub prev.x) (next.g.sub prev.g), answer⟩ ::
        Note.written (refusal answer) ∧ r = learned b answer := by
  have rest : ∀ (answer : Except (Failure α) (Mat α)) (t' : Transcript α),
      Run.Ends (match answer with
      | .ok db => pure (b.add db)
      | .error (.illConditionedUpdate curvature) => do
        Run.note (.updateSkipped curvature)
        pure b
      | .error failure => throw failure) t' r ↔
      t' = Note.written (refusal answer) ∧ r = learned b answer := by
    intro answer t'
    unfold refusal learned
    rcases answer with (_ | _ | _ | c | _) | db
    case ok => exact Run.ends_pure_iff
    case error.illConditionedUpdate =>
      rw [Run.ends_note_bind_iff]
      constructor
      · rintro ⟨t'', rfl, h⟩
        obtain ⟨rfl, rfl⟩ := Run.ends_pure_iff.mp h
        exact ⟨rfl, rfl⟩
      · rintro ⟨rfl, rfl⟩
        exact ⟨[], rfl, Run.ends_pure_iff.mpr ⟨rfl, rfl⟩⟩
    all_goals exact Run.ends_throw_iff
  refine Run.ends_query_bind_iff.trans ?_
  constructor
  · rintro ⟨answer, t', rfl, h⟩
    obtain ⟨rfl, rfl⟩ := (rest answer t').mp h
    exact ⟨answer, rfl, rfl⟩
  · rintro ⟨answer, rfl, rfl⟩
    exact ⟨answer, _, rfl, (rest answer _).mpr ⟨rfl, rfl⟩⟩

end Strategy

/-! ### The three methods -/

/-- A method of descent. -/
inductive Method where
  /-- Along the negative gradient. -/
  | steepestDescent
  /-- Along Fletcher-Reeves conjugate directions. -/
  | conjugateGradient
  /-- With an approximation of the inverse Hessian. -/
  | quasiNewton
  deriving DecidableEq, Repr

namespace Method

/-- The run of a method from a starting point. -/
def solve : Method → Options α → Vec α → Run α (Solution α)
  | steepestDescent => Run.steepestDescent
  | conjugateGradient => Run.conjugateGradient
  | quasiNewton => Run.quasiNewton

/-- What a method remembers. -/
def Memory (α : Type) : Method → Type
  | steepestDescent => Unit
  | conjugateGradient => Option (Strategy.Conjugate α)
  | quasiNewton => Mat α

/-- The strategy of a method in dimension `n`. -/
def strategy : (method : Method) → (n : Nat) → Strategy α (method.Memory α)
  | steepestDescent, _ => Strategy.steepest
  | conjugateGradient, n => Strategy.fletcherReeves (max n 1)
  | quasiNewton, _ => Strategy.quasiNewton

/-- What a method remembers at the start, in dimension `n`. -/
def initial : (method : Method) → (n : Nat) → method.Memory α
  | steepestDescent, _ => ()
  | conjugateGradient, _ => none
  | quasiNewton, n => Mat.identity n

theorem solve_eq (method : Method) (opt : Options α) (x₀ : Vec α) :
    method.solve opt x₀ =
      Run.minimize (method.strategy x₀.length) (method.initial x₀.length) opt x₀ := by
  cases method <;> rfl

/-! ### Directions as long as the design vector -/

/-- The memory gives directions of length `n`. -/
def Fits : (method : Method) → (n : Nat) → method.Memory α → Prop
  | steepestDescent, _, _ => True
  | conjugateGradient, n, last => ∀ c : Strategy.Conjugate α, last = some c → c.s.length = n
  | quasiNewton, n, b => Mat.IsSquare b n

theorem fits_initial (method : Method) (n : Nat) : method.Fits n (method.initial (α := α) n) := by
  cases method with
  | steepestDescent => trivial
  | conjugateGradient =>
    intro c hc
    cases hc
  | quasiNewton => exact Mat.isSquare_identity n

theorem length_conjugateTo {n : Nat} (m k : Nat) {g : Vec α} {last : Option (Strategy.Conjugate α)}
    (hg : g.length = n) (hlast : ∀ c, last = some c → c.s.length = n) :
    (Strategy.conjugateTo m k g last).length = n := by
  unfold Strategy.conjugateTo
  cases last with
  | none => simpa using hg
  | some c =>
    have hc := hlast c rfl
    simp only
    split
    · simp [hg, hc]
    · simpa using hg

variable {method : Method} {n : Nat} {memory : method.Memory α}

/-- A direction is as long as the gradient, and the memory still fits. -/
theorem Fits.direction (h : method.Fits n memory) (k : Nat) {it : Iterate α}
    (hg : it.g.length = n) :
    ((method.strategy n).direction k it memory).1.length = n ∧
      method.Fits n ((method.strategy n).direction k it memory).2 := by
  cases method with
  | steepestDescent => exact ⟨(Vec.length_neg _).trans hg, trivial⟩
  | conjugateGradient =>
    have hlen := length_conjugateTo (max n 1) k hg h
    refine ⟨hlen, fun c hc => ?_⟩
    cases hc
    exact hlen
  | quasiNewton => exact ⟨by
      rw [← h.1]
      exact (Vec.length_neg _).trans (Mat.length_mulVec _ _), h⟩

/-- What a method learns from a step fits, if the update rule keeps the shape. -/
theorem Fits.absorb (h : method.Fits n memory) {prev next : Iterate α} {t : Transcript α}
    {memory' : method.Memory α}
    (hend : Run.Ends ((method.strategy n).absorb prev next memory) t (.ok memory'))
    (hshape : t.KeepsShape) : method.Fits n memory' := by
  cases method with
  | steepestDescent => trivial
  | conjugateGradient =>
    obtain ⟨-, hm⟩ := Run.ends_pure_iff.mp hend
    cases hm
    exact h
  | quasiNewton =>
    obtain ⟨answer, rfl, hm⟩ := Strategy.ends_absorb_quasiNewton_iff.mp hend
    rcases Strategy.learned_eq_ok hm.symm with ⟨db, rfl, rfl⟩ | ⟨c, rfl, rfl⟩
    · exact Mat.IsSquare.add h ((hshape _ _ _ _ List.mem_cons_self).isSquare h)
    · exact h

/-- Learning from a step takes at most a call of the update rule and a note. -/
theorem aside_absorb {prev next : Iterate α} {t : Transcript α}
    {r : Except (Failure α) (method.Memory α)}
    (hend : Run.Ends ((method.strategy n).absorb prev next memory) t r) : t.Aside := by
  cases method with
  | steepestDescent =>
    obtain ⟨rfl, -⟩ := Run.ends_pure_iff.mp hend
    simp [Transcript.Aside]
  | conjugateGradient =>
    obtain ⟨rfl, -⟩ := Run.ends_pure_iff.mp hend
    simp [Transcript.Aside]
  | quasiNewton =>
    obtain ⟨answer, rfl, -⟩ := Strategy.ends_absorb_quasiNewton_iff.mp hend
    refine List.forall_mem_cons.mpr ⟨Or.inl ⟨_, _, _, rfl⟩, fun x hx => ?_⟩
    obtain ⟨n, -, rfl⟩ := List.mem_map.mp hx
    exact Or.inr ⟨n, rfl⟩

/-- A run of a method does not evaluate the constraints. -/
theorem unconstrained_of_ends {opt : Options α} {x₀ : Vec α} {t : Transcript α}
    {r : Except (Failure α) (Solution α)} (hend : Run.Ends (method.solve opt x₀) t r) :
    t.Unconstrained := by
  have descends : ∀ {left σ t stages r},
      Run.Descends (method.strategy x₀.length) opt left σ t stages r → t.Unconstrained := by
    intro left σ t stages r h
    induction h with
    | fails h₁ => exact (Run.evaluates_of_ends_iteration h₁).unconstrained
    | stops h₁ _ =>
      exact Transcript.unconstrained_append_iff.mpr
        ⟨(Run.evaluates_of_ends_iteration h₁).unconstrained,
          (Transcript.evaluates_written _).unconstrained⟩
    | refuses h₁ _ h₂ =>
      exact Transcript.unconstrained_append_iff.mpr
        ⟨(Run.evaluates_of_ends_iteration h₁).unconstrained, (aside_absorb h₂).unconstrained⟩
    | goesOn h₁ _ h₂ _ ih =>
      simp only [Transcript.unconstrained_append_iff]
      exact ⟨⟨(Run.evaluates_of_ends_iteration h₁).unconstrained,
        (aside_absorb h₂).unconstrained⟩, ih⟩
  rw [solve_eq] at hend
  obtain ⟨stages, h⟩ := Run.ends_minimize_iff.mp hend
  cases h with
  | unusable _ => exact Transcript.unconstrained_nil
  | empty _ _ => exact Transcript.unconstrained_nil
  | unstarted _ _ h₁ => exact (Run.evaluates_of_ends_iterate h₁).unconstrained
  | descends _ _ h₁ h₂ =>
    exact Transcript.unconstrained_append_iff.mpr
      ⟨(Run.evaluates_of_ends_iterate h₁).unconstrained, descends h₂⟩

/-- The update rule is asked by the quasi-Newton method only. -/
theorem eq_quasiNewton_of_update {opt : Options α} {x₀ : Vec α} {t : Transcript α}
    {r : Except (Failure α) (Solution α)} (hend : Run.Ends (method.solve opt x₀) t r) {b : Mat α}
    {dx dg : Vec α} {answer : Except (Failure α) (Mat α)} (hx : ⟨.update b dx dg, answer⟩ ∈ t) :
    method = .quasiNewton := by
  rw [solve_eq] at hend
  obtain ⟨stages, h⟩ := Run.ends_minimize_iff.mp hend
  obtain ⟨τ, -, v, i, u, m, -, hu, hmem⟩ := h.exists_stage_of_update hx
  cases method with
  | steepestDescent =>
    obtain ⟨rfl, -⟩ := Run.ends_pure_iff.mp hu
    cases hmem
  | conjugateGradient =>
    obtain ⟨rfl, -⟩ := Run.ends_pure_iff.mp hu
    cases hmem
  | quasiNewton => rfl

/-- So it need leave rows only there. -/
theorem keepsRows_of_ends {opt : Options α} {x₀ : Vec α} {t : Transcript α}
    {r : Except (Failure α) (Solution α)} (hend : Run.Ends (method.solve opt x₀) t r)
    (hrows : method = .quasiNewton → t.KeepsRows) : t.KeepsRows := fun b dx dg db hx =>
  hrows (eq_quasiNewton_of_update hend hx) b dx dg db hx

/-! ### Directions that reach every coordinate -/

/-- The memory gives directions with an element for each of `n` coordinates, or more. -/
def Covers : (method : Method) → (n : Nat) → method.Memory α → Prop
  | steepestDescent, _, _ => True
  | conjugateGradient, n, last => ∀ c : Strategy.Conjugate α, last = some c → c.s.length = n
  | quasiNewton, n, b => n ≤ Mat.height b

omit [Scalar α] in
theorem Fits.covers (h : method.Fits n memory) : method.Covers n memory := by
  cases method with
  | steepestDescent => trivial
  | conjugateGradient => exact h
  | quasiNewton => exact Nat.le_of_eq h.1.symm

/-- A direction is no shorter than the gradient, and the memory still covers the coordinates. -/
theorem Covers.direction (h : method.Covers n memory) (k : Nat) {it : Iterate α}
    (hg : it.g.length = n) :
    n ≤ ((method.strategy n).direction k it memory).1.length ∧
      method.Covers n ((method.strategy n).direction k it memory).2 := by
  cases method with
  | steepestDescent =>
    exact ⟨Nat.le_of_eq (hg.symm.trans (Vec.length_neg _).symm), trivial⟩
  | conjugateGradient =>
    have hfits : conjugateGradient.Fits n memory := h
    obtain ⟨hlen, hmemory⟩ := hfits.direction k hg
    exact ⟨Nat.le_of_eq hlen.symm, hmemory⟩
  | quasiNewton =>
    refine ⟨?_, h⟩
    have hlen := (Vec.length_neg (Mat.mulVec memory it.g)).trans (Mat.length_mulVec _ _)
    exact Nat.le_trans h (Nat.le_of_eq hlen.symm)

/-- It does after what a method learns from a step, if the update rule leaves rows. -/
theorem Covers.absorb (h : method.Covers n memory) {prev next : Iterate α} {t : Transcript α}
    {memory' : method.Memory α}
    (hend : Run.Ends ((method.strategy n).absorb prev next memory) t (.ok memory'))
    (hrows : t.KeepsRows) : method.Covers n memory' := by
  cases method with
  | steepestDescent => trivial
  | conjugateGradient =>
    obtain ⟨-, hm⟩ := Run.ends_pure_iff.mp hend
    cases hm
    exact h
  | quasiNewton =>
    obtain ⟨answer, rfl, hm⟩ := Strategy.ends_absorb_quasiNewton_iff.mp hend
    rcases Strategy.learned_eq_ok hm.symm with ⟨db, rfl, rfl⟩ | ⟨c, rfl, rfl⟩
    · change n ≤ (Mat.add memory db).height
      rcases Mat.height_add memory db with heq | ⟨hone, heq⟩
      · rw [heq]
        exact h
      · have hdb := hrows _ _ _ _ List.mem_cons_self hone
        have hn : n ≤ Mat.height memory := h
        omega
    · exact h

end Method

/-! ### The dimension of a run -/

variable {method : Method} {n : Nat} {opt : Options α} {σ : Stage α (method.Memory α)}
  {t : Transcript α} {i : Iteration α (method.Memory α)}

/-- What is known when an iteration begins, if the update rule leaves rows: points and gradients have
the dimension of the run, and directions an element for each coordinate. -/
structure Stage.Full (n : Nat) (σ : Stage α (method.Memory α)) : Prop where
  /-- The length of the point. -/
  point : σ.it.x.length = n
  /-- The length of the gradient estimate. -/
  gradient : σ.it.g.length = n
  /-- The method gives directions of that length, or longer. -/
  memory : method.Covers n σ.memory

namespace Stage.Full

/-- The line of an iteration stays in the dimension. -/
theorem length_along (hσ : σ.Full n) (a : α) :
    (σ.it.x.along (Run.unitDirection (method.strategy n) σ.k σ.it σ.memory) a).length = n := by
  obtain ⟨hdir, -⟩ := hσ.memory.direction σ.k hσ.gradient
  rw [Vec.length_along, Run.unitDirection, Vec.length_normalize, hσ.point]
  exact Nat.min_eq_left hdir

/-- The point that an iteration leads to has the dimension, and so has the gradient there. -/
theorem iteration (hσ : σ.Full n) (h : Run.Iterates (method.strategy n) opt σ t (.ok i)) :
    (⟨σ.k + 1, i.next, i.memory⟩ : Stage α (method.Memory α)).Full n := by
  obtain ⟨t₁, t₂, step, next, -, h₂, rfl, -⟩ := Run.ends_iteration_ok_iff.mp h
  obtain ⟨hx, hg⟩ := Run.shape_of_ends_iterate h₂
  have hpoint : next.x.length = n := by
    rw [hx]
    exact hσ.length_along _
  refine ⟨hpoint, ?_, (hσ.memory.direction σ.k hσ.gradient).2⟩
  rw [← hpoint, hx]
  exact hg

/-- What a method learns does not change that, if the update rule leaves rows. -/
theorem absorb {prev : Iterate α} {u : Transcript α} {m : method.Memory α} (hσ : σ.Full n)
    (h : Run.Ends ((method.strategy n).absorb prev σ.it σ.memory) u (.ok m))
    (hrows : u.KeepsRows) : (⟨σ.k, σ.it, m⟩ : Stage α (method.Memory α)).Full n :=
  ⟨hσ.point, hσ.gradient, hσ.memory.absorb h hrows⟩

end Stage.Full

/-- What is known when an iteration begins: all vectors have the dimension of the run. -/
structure Stage.Shaped (n : Nat) (σ : Stage α (method.Memory α)) : Prop where
  /-- The length of the point. -/
  point : σ.it.x.length = n
  /-- The length of the gradient estimate. -/
  gradient : σ.it.g.length = n
  /-- The method gives directions of that length. -/
  memory : method.Fits n σ.memory

/-- A run begins in the dimension of its starting point. -/
theorem Method.shaped_start {it : Iterate α} {x₀ : Vec α} {h : α}
    (hend : Run.Ends (Run.iterate x₀ h) t (.ok it)) :
    (⟨0, it, method.initial x₀.length⟩ : Stage α (method.Memory α)).Shaped x₀.length := by
  obtain ⟨hx, hg⟩ := Run.shape_of_ends_iterate hend
  exact ⟨congrArg List.length hx, hg, method.fits_initial _⟩

namespace Stage.Shaped

/-- The line of an iteration stays in the dimension. -/
theorem length_unitDirection (hσ : σ.Shaped n) :
    (Run.unitDirection (method.strategy n) σ.k σ.it σ.memory).length = σ.it.x.length := by
  obtain ⟨hdir, -⟩ := hσ.memory.direction σ.k hσ.gradient
  rw [Run.unitDirection, Vec.length_normalize, hdir, hσ.point]

omit [Scalar α] in
theorem full (hσ : σ.Shaped n) : σ.Full n := ⟨hσ.point, hσ.gradient, hσ.memory.covers⟩

/-- An iteration stays in the dimension. -/
theorem iteration (hσ : σ.Shaped n) (h : Run.Iterates (method.strategy n) opt σ t (.ok i)) :
    (⟨σ.k + 1, i.next, i.memory⟩ : Stage α (method.Memory α)).Shaped n := by
  have hfull := hσ.full.iteration h
  obtain ⟨t₁, t₂, step, next, -, -, rfl, -⟩ := Run.ends_iteration_ok_iff.mp h
  exact ⟨hfull.point, hfull.gradient, (hσ.memory.direction σ.k hσ.gradient).2⟩

/-- So does what a method learns, if the update rule keeps the shape. -/
theorem absorb {prev : Iterate α} {u : Transcript α} {m : method.Memory α} (hσ : σ.Shaped n)
    (h : Run.Ends ((method.strategy n).absorb prev σ.it σ.memory) u (.ok m))
    (hshape : u.KeepsShape) : (⟨σ.k, σ.it, m⟩ : Stage α (method.Memory α)).Shaped n :=
  ⟨hσ.point, hσ.gradient, hσ.memory.absorb h hshape⟩

end Stage.Shaped

/-! ### The points of a run -/

/-- All vectors of a run have the dimension of its starting point, if the rule keeps the shape. -/
theorem Run.Minimizes.shaped {x₀ : Vec α} {stages : List (Stage α (method.Memory α))}
    {r : Except (Failure α) (Solution α)}
    (h : Run.Minimizes (method.strategy x₀.length) (method.initial x₀.length) opt x₀ t stages r)
    (hshape : t.KeepsShape) : ∀ τ ∈ stages, τ.Shaped x₀.length :=
  h.forall_stages_of_changes Method.shaped_start
    (fun hτ hi hu hchanges => (hτ.iteration hi).absorb hu hchanges) hshape

/-- Its points do already if the rule leaves rows. -/
theorem Run.Minimizes.full {x₀ : Vec α} {stages : List (Stage α (method.Memory α))}
    {r : Except (Failure α) (Solution α)}
    (h : Run.Minimizes (method.strategy x₀.length) (method.initial x₀.length) opt x₀ t stages r)
    (hrows : t.KeepsRows) : ∀ τ ∈ stages, τ.Full x₀.length :=
  h.forall_stages_of_changes (fun h₁ => (Method.shaped_start h₁).full)
    (fun hτ hi hu hchanges => (hτ.iteration hi).absorb hu hchanges) hrows

/-- The points of a descent have the dimension of the run, if the update rule leaves rows. -/
theorem Run.Descends.length {left : Nat} {stages : List (Stage α (method.Memory α))}
    {r : Except (Failure α) (Solution α)}
    (h : Run.Descends (method.strategy n) opt left σ t stages r) (hσ : σ.Full n)
    (hrows : t.KeepsRows) :
    (∀ x ∈ t.iterates, x.length = n) ∧ ∀ sol, r = .ok sol → sol.x.length = n := by
  induction h with
  | fails h₁ =>
    refine ⟨fun x hx => ?_, nofun⟩
    obtain ⟨a, rfl⟩ := Run.exists_along_of_ends_iteration_error h₁ hx
    exact hσ.length_along a
  | stops h₁ _ =>
    have hpoint := (hσ.iteration h₁).point
    rw [Transcript.iterates_append, (Run.views_of_ends_iteration h₁).1,
      Transcript.iterates_written]
    refine ⟨by simpa using hpoint, fun sol hsol => ?_⟩
    cases hsol
    exact hpoint
  | refuses h₁ _ h₂ =>
    rw [Transcript.iterates_append, (Run.views_of_ends_iteration h₁).1,
      (Method.aside_absorb h₂).iterates]
    exact ⟨by simpa using (hσ.iteration h₁).point, nofun⟩
  | goesOn h₁ _ h₂ _ ih =>
    simp only [Transcript.keepsRows_append_iff] at hrows
    have hnext := hσ.iteration h₁
    obtain ⟨hrest, hsol⟩ := ih (hnext.absorb h₂ hrows.1.2) hrows.2
    rw [Transcript.iterates_append, Transcript.iterates_append,
      (Run.views_of_ends_iteration h₁).1, (Method.aside_absorb h₂).iterates]
    exact ⟨List.forall_mem_cons.mpr ⟨hnext.point, hrest⟩, hsol⟩

/-- **The points of a run have the dimension of its starting point**, if the update rule of a
quasi-Newton method leaves rows. -/
theorem Method.length_of_ends {x₀ : Vec α} {r : Except (Failure α) (Solution α)}
    (hend : Run.Ends (method.solve opt x₀) t r) (hrows : method = .quasiNewton → t.KeepsRows) :
    (∀ x ∈ t.iterates, x.length = x₀.length) ∧
      ∀ sol, r = .ok sol → sol.x.length = x₀.length := by
  have hrows := Method.keepsRows_of_ends hend hrows
  rw [Method.solve_eq] at hend
  obtain ⟨stages, h⟩ := Run.ends_minimize_iff.mp hend
  cases h with
  | unusable _ => exact ⟨nofun, nofun⟩
  | empty _ _ => exact ⟨nofun, nofun⟩
  | unstarted _ _ h₁ =>
    refine ⟨fun x hx => ?_, nofun⟩
    rw [Run.mem_iterates_of_ends_iterate h₁ hx]
  | descends _ _ h₁ h₂ =>
    rw [Transcript.keepsRows_append_iff] at hrows
    obtain ⟨hrest, hsol⟩ := h₂.length (Method.shaped_start h₁).full hrows.2
    rw [Transcript.iterates_append, (Run.iterates_of_ends_iterate h₁).2]
    exact ⟨List.forall_mem_cons.mpr ⟨rfl, hrest⟩, hsol⟩

end Optimum
