import Optimum.Difference
import Optimum.Proofs.Paths

/-!
# Outcomes of runs

`Run.Ends` is a run's path to its outcome, a result or a failure. The lemmas below say what the
paths of the parts of a run are, one for each way of putting runs together, so that proofs about
an algorithm need not open the dialogue underneath. An `iff` is read from left to right to take
a run apart.

A statement about all runs on all problems follows from one about all paths (`ends_recordOn`);
what is known of a callback is known of its answers in the transcript (`answer_of_recordOn`).
-/

namespace Optimum

namespace Run

variable {α β γ : Type}

/-- Answered as the transcript says, a run has the outcome `r`. -/
def Ends (run : Run α β) (t : Transcript α) (r : Except (Failure α) β) : Prop :=
  Dialogue.Ends run.run t r

/-- The failure of an outcome, if it is one. -/
def failure? : Except (Failure α) β → Option (Failure α)
  | .error e => some e
  | .ok _ => none

theorem failure?_eq_none_iff {r : Except (Failure α) β} :
    failure? r = none ↔ ∃ b, r = .ok b := by
  cases r with
  | error e => exact ⟨nofun, nofun⟩
  | ok b => exact ⟨fun _ => ⟨b, rfl⟩, fun _ => rfl⟩

/-- Two outcomes are the same failure, or results that correspond. -/
inductive Corresponds (R : β → γ → Prop) :
    Except (Failure α) β → Except (Failure α) γ → Prop where
  /-- Both fail. -/
  | error (e : Failure α) : Corresponds R (.error e) (.error e)
  /-- Both give a result. -/
  | ok {b : β} {c : γ} : R b c → Corresponds R (.ok b) (.ok c)

theorem Corresponds.mono {R R' : β → γ → Prop} {r : Except (Failure α) β}
    {r' : Except (Failure α) γ} (h : Corresponds R r r') (hR : ∀ b c, R b c → R' b c) :
    Corresponds R' r r' := by
  cases h with
  | error e => exact .error e
  | ok h => exact .ok (hR _ _ h)

theorem Corresponds.eq_map {g : γ → β} {r : Except (Failure α) β} {r' : Except (Failure α) γ}
    (h : Corresponds (fun b c => b = g c) r r') : r = r'.map g := by
  cases h with
  | error e => rfl
  | ok h => exact congrArg Except.ok h

theorem Corresponds.map_eq {g : β → γ} {r : Except (Failure α) β} {r' : Except (Failure α) γ}
    (h : Corresponds (fun b c => c = g b) r r') : r' = r.map g := by
  cases h with
  | error e => rfl
  | ok h => exact congrArg Except.ok h

theorem Corresponds.eq {r r' : Except (Failure α) β} (h : Corresponds Eq r r') : r = r' := by
  cases h with
  | error e => rfl
  | ok h => exact congrArg Except.ok h

/-! ### Sequencing -/

@[simp] theorem ends_pure_iff {b : β} {t : Transcript α} {r : Except (Failure α) β} :
    Ends (pure b) t r ↔ t = [] ∧ r = .ok b :=
  Dialogue.ends_done_iff

@[simp] theorem ends_throw_iff {e : Failure α} {t : Transcript α} {r : Except (Failure α) β} :
    Ends (throw e) t r ↔ t = [] ∧ r = .error e :=
  Dialogue.ends_done_iff

@[simp] theorem ends_liftM_iff {x : Except (Failure α) β} {t : Transcript α}
    {r : Except (Failure α) β} : Ends (liftM x) t r ↔ t = [] ∧ r = x :=
  Dialogue.ends_done_iff

/-- Two runs in sequence: the first fails, or the second follows. -/
theorem ends_bind_iff {x : Run α β} {f : β → Run α γ} {t : Transcript α}
    {r : Except (Failure α) γ} :
    Ends (x >>= f) t r ↔
      (∃ e, Ends x t (.error e) ∧ r = .error e) ∨
        ∃ t₁ b t₂, Ends x t₁ (.ok b) ∧ Ends (f b) t₂ r ∧ t = t₁ ++ t₂ := by
  unfold Ends
  rw [ExceptT.run_bind, Dialogue.ends_bind_iff]
  constructor
  · intro h
    obtain ⟨t₁, c, t₂, h₁, h₂, rfl⟩ := h
    cases c with
    | error e =>
      obtain ⟨rfl, rfl⟩ := Dialogue.ends_done_iff.mp h₂
      exact Or.inl ⟨e, by simpa using h₁, rfl⟩
    | ok b => exact Or.inr ⟨t₁, b, t₂, h₁, h₂, rfl⟩
  · intro h
    rcases h with ⟨e, h, rfl⟩ | ⟨t₁, b, t₂, h₁, h₂, rfl⟩
    · exact ⟨t, .error e, [], h, Dialogue.ends_done_iff.mpr ⟨rfl, rfl⟩, by simp⟩
    · exact ⟨t₁, .ok b, t₂, h₁, h₂, rfl⟩

theorem ends_bind_ok_iff {x : Run α β} {f : β → Run α γ} {t : Transcript α} {c : γ} :
    Ends (x >>= f) t (.ok c) ↔
      ∃ t₁ b t₂, Ends x t₁ (.ok b) ∧ Ends (f b) t₂ (.ok c) ∧ t = t₁ ++ t₂ := by
  rw [ends_bind_iff]
  simp

theorem ends_bind_error_iff {x : Run α β} {f : β → Run α γ} {t : Transcript α} {e : Failure α} :
    Ends (x >>= f) t (.error e) ↔
      Ends x t (.error e) ∨
        ∃ t₁ b t₂, Ends x t₁ (.ok b) ∧ Ends (f b) t₂ (.error e) ∧ t = t₁ ++ t₂ := by
  rw [ends_bind_iff]
  simp

/-- A check, which asks nothing, followed by a run. -/
theorem ends_liftM_bind_iff {x : Except (Failure α) β} {f : β → Run α γ} {t : Transcript α}
    {r : Except (Failure α) γ} :
    Ends (liftM x >>= f) t r ↔
      (∃ e, x = .error e ∧ t = [] ∧ r = .error e) ∨ ∃ b, x = .ok b ∧ Ends (f b) t r := by
  rw [ends_bind_iff]
  simp only [ends_liftM_iff]
  constructor
  · intro h
    rcases h with ⟨e, ⟨rfl, rfl⟩, rfl⟩ | ⟨t₁, b, t₂, ⟨rfl, rfl⟩, h, rfl⟩
    · exact Or.inl ⟨e, rfl, rfl, rfl⟩
    · exact Or.inr ⟨b, rfl, h⟩
  · intro h
    rcases h with ⟨e, rfl, rfl, rfl⟩ | ⟨b, rfl, h⟩
    · exact Or.inl ⟨e, ⟨rfl, rfl⟩, rfl⟩
    · exact Or.inr ⟨[], b, t, ⟨rfl, rfl⟩, h, rfl⟩

/-! ### Questions -/

@[simp] theorem ends_query_iff {q : Question α} {t : Transcript α}
    {r : Except (Failure α) (Answer α q)} :
    Ends (query q) t r ↔ ∃ a, t = [⟨q, a⟩] ∧ r = .ok a := by
  unfold Ends query
  rw [ExceptT.run_lift, Dialogue.ends_map_iff]
  simp

theorem ends_query_bind_iff {q : Question α} {f : Answer α q → Run α β} {t : Transcript α}
    {r : Except (Failure α) β} :
    Ends (query q >>= f) t r ↔ ∃ a t', t = ⟨q, a⟩ :: t' ∧ Ends (f a) t' r := by
  rw [ends_bind_iff]
  simp only [ends_query_iff]
  constructor
  · intro h
    rcases h with ⟨e, ⟨a, -, h⟩, -⟩ | ⟨t₁, b, t₂, ⟨a, rfl, h⟩, h₂, rfl⟩
    · cases h
    · cases h
      exact ⟨b, t₂, rfl, h₂⟩
  · intro h
    obtain ⟨a, t', rfl, h⟩ := h
    exact Or.inr ⟨[⟨q, a⟩], a, t', ⟨a, rfl, rfl⟩, h, rfl⟩

/-- A message has no answer to wait for. -/
theorem ends_note_bind_iff {n : Note α} {f : Unit → Run α β} {t : Transcript α}
    {r : Except (Failure α) β} :
    Ends (note n >>= f) t r ↔ ∃ t', t = ⟨.note n, ()⟩ :: t' ∧ Ends (f ()) t' r :=
  ends_query_bind_iff.trans ⟨fun ⟨_, h⟩ => h, fun h => ⟨(), h⟩⟩

theorem ends_progress_bind_iff {p : Progress α} {f : Unit → Run α β} {t : Transcript α}
    {r : Except (Failure α) β} :
    Ends (progress p >>= f) t r ↔ ∃ t', t = ⟨.progress p, ()⟩ :: t' ∧ Ends (f ()) t' r :=
  ends_query_bind_iff.trans ⟨fun ⟨_, h⟩ => h, fun h => ⟨(), h⟩⟩

/-- Notes written one after another. -/
theorem ends_forM_note_iff {ns : List (Note α)} {t : Transcript α}
    {r : Except (Failure α) Unit} :
    Ends (ns.forM note) t r ↔ t = ns.map (fun n => ⟨.note n, ()⟩) ∧ r = .ok () := by
  induction ns generalizing t with
  | nil => simp
  | cons n ns ih =>
    rw [show (n :: ns).forM note = note n >>= fun _ => ns.forM note from rfl, ends_note_bind_iff]
    simp only [ih, List.map_cons]
    constructor
    · intro h
      obtain ⟨t', rfl, rfl, rfl⟩ := h
      exact ⟨rfl, rfl⟩
    · intro h
      obtain ⟨rfl, rfl⟩ := h
      exact ⟨_, rfl, rfl, rfl⟩

/-! ### Plans -/

/-- The exchanges of an estimator with the objective, as exchanges of a run. -/
def ofPlan (u : Dialogue.Record (fun _ : Vec α => α)) : Transcript α :=
  u.map fun e => ⟨.objective e.question, e.answer⟩

/-- A plan carried out on the objective never fails. -/
theorem ends_plan_iff {plan : Plan α β} {t : Transcript α} {r : Except (Failure α) β} :
    Ends (plan.run objective) t r ↔ ∃ u b, plan.Ends u b ∧ t = ofPlan u ∧ r = .ok b := by
  induction plan generalizing t with
  | done b =>
    rw [Dialogue.run_done, ends_pure_iff]
    constructor
    · intro h
      obtain ⟨rfl, rfl⟩ := h
      exact ⟨[], b, by simp, rfl, rfl⟩
    · intro h
      obtain ⟨u, c, hu, rfl, rfl⟩ := h
      obtain ⟨rfl, rfl⟩ := Dialogue.ends_done_iff.mp hu
      exact ⟨rfl, rfl⟩
  | ask x next ih =>
    rw [Dialogue.run_ask, objective, ends_query_bind_iff]
    constructor
    · intro h
      obtain ⟨v, t', rfl, h⟩ := h
      obtain ⟨u, b, hu, rfl, rfl⟩ := (ih v).mp h
      exact ⟨⟨x, v⟩ :: u, b, .ask hu, rfl, rfl⟩
    · intro h
      obtain ⟨u, b, hu, rfl, rfl⟩ := h
      obtain ⟨v, u', rfl, hu'⟩ := Dialogue.ends_ask_iff.mp hu
      exact ⟨v, ofPlan u', rfl, (ih v).mpr ⟨u', b, hu', rfl, rfl⟩⟩

/-- A gradient estimate: the estimator gives a plan, which is then carried out. -/
theorem ends_gradient_iff {x : Vec α} {h : α} {t : Transcript α}
    {r : Except (Failure α) (Vec α)} :
    Ends (gradient x h) t r ↔
      ∃ plan u g, plan.Ends u g ∧ t = ⟨.gradient x h, plan⟩ :: ofPlan u ∧ r = .ok g := by
  rw [gradient, ends_query_bind_iff]
  constructor
  · intro h
    obtain ⟨plan, t', rfl, h⟩ := h
    obtain ⟨u, g, hu, rfl, rfl⟩ := ends_plan_iff.mp h
    exact ⟨plan, u, g, hu, rfl, rfl⟩
  · intro h
    obtain ⟨plan, u, g, hu, rfl, rfl⟩ := h
    exact ⟨plan, ofPlan u, rfl, ends_plan_iff.mpr ⟨u, g, hu, rfl, rfl⟩⟩

/-! ### Runs on problems -/

section On

variable {m : Type → Type} [Monad m] {problem : Callbacks m α}

theorem on_query_bind (q : Question α) (f : Answer α q → Run α β) :
    (query q >>= f).on problem = problem.answer q >>= fun a => (f a).on problem := rfl

variable [LawfulMonad m]

/-- Two runs in sequence. -/
theorem on_bind (run : Run α β) (f : β → Run α γ) :
    (run >>= f).on problem = run.on problem >>= fun r => match r with
      | .ok b => (f b).on problem
      | .error e => pure (.error e) := by
  unfold on
  rw [ExceptT.run_bind, Dialogue.run_bind]
  congr 1
  funext r
  cases r <;> rfl

/-- A plan carried out on the objective. -/
theorem on_plan (plan : Plan α β) :
    (plan.run objective).on problem = .ok <$> plan.run problem.objective := by
  induction plan with
  | done b => exact (map_pure _ _).symm
  | ask x next ih =>
    rw [Dialogue.run_ask, Dialogue.run_ask, map_bind, objective, on_query_bind]
    exact bind_congr fun v => ih v

end On

section RecordOn

variable {σ : Type} {problem : Callbacks (StateM σ) α}

/-- Where the first of two runs succeeds, the second goes on from the state that it leaves. -/
theorem on_bind_of_ok {run : Run α β} {f : β → Run α γ} {s : σ} {b : β}
    (h : ((run.on problem).run s).1 = .ok b) :
    ((run >>= f).on problem).run s = ((f b).on problem).run ((run.on problem).run s).2 := by
  rw [on_bind, StateT.run_bind]
  cases hrun : (run.on problem).run s with
  | mk r s' =>
    rw [hrun] at h
    cases h
    rfl

/-- Where it fails, so do both. -/
theorem on_bind_of_error {run : Run α β} {f : β → Run α γ} {s : σ} {e : Failure α}
    (h : ((run.on problem).run s).1 = .error e) :
    (((run >>= f).on problem).run s).1 = .error e := by
  rw [on_bind, StateT.run_bind]
  cases hrun : (run.on problem).run s with
  | mk r s' =>
    rw [hrun] at h
    cases h
    rfl

/-- A run on a problem ends as its record says. -/
theorem ends_recordOn (run : Run α β) (s : σ) :
    Ends run ((run.recordOn problem).run s).1.2 ((run.recordOn problem).run s).1.1 :=
  Dialogue.ends_record _ s

theorem answer_of_recordOn {run : Run α β} {s : σ} {x : Dialogue.Exchange (Answer α)}
    (h : x ∈ ((run.recordOn problem).run s).1.2) :
    ∃ s', ((problem.answer x.question).run s').1 = x.answer :=
  Dialogue.answer_of_mem_record h

end RecordOn

end Run

/-! ### Views of a transcript -/

namespace Transcript

variable {α : Type}

@[simp] theorem evaluations_append (t u : Transcript α) :
    evaluations (t ++ u) = evaluations t ++ evaluations u := List.filterMap_append

@[simp] theorem constraintEvaluations_append (t u : Transcript α) :
    constraintEvaluations (t ++ u) = constraintEvaluations t ++ constraintEvaluations u :=
  List.filterMap_append

@[simp] theorem progress_append (t u : Transcript α) :
    progress (t ++ u) = progress t ++ progress u := List.filterMap_append

theorem mem_evaluations_iff {t : Transcript α} {x : Vec α} {v : α} :
    (x, v) ∈ t.evaluations ↔ ⟨.objective x, v⟩ ∈ t := by
  constructor
  · intro h
    obtain ⟨⟨q, a⟩, hmem, hq⟩ := List.mem_filterMap.mp h
    cases q <;> simp only [reduceCtorEq, Option.some.injEq, Prod.mk.injEq] at hq
    obtain ⟨rfl, rfl⟩ := hq
    exact hmem
  · exact fun h => List.mem_filterMap.mpr ⟨_, h, rfl⟩

theorem mem_constraintEvaluations_iff {t : Transcript α} {x : Vec α} {r : Residuals α} :
    (x, r) ∈ t.constraintEvaluations ↔ ⟨.constraints x, r⟩ ∈ t := by
  constructor
  · intro h
    obtain ⟨⟨q, a⟩, hmem, hq⟩ := List.mem_filterMap.mp h
    cases q <;> simp only [reduceCtorEq, Option.some.injEq, Prod.mk.injEq] at hq
    obtain ⟨rfl, rfl⟩ := hq
    exact hmem
  · exact fun h => List.mem_filterMap.mpr ⟨_, h, rfl⟩

/-- The points at which a gradient was asked for. A descent asks for one at each iterate, and
nowhere else. -/
def iterates (t : Transcript α) : List (Vec α) :=
  t.filterMap fun
    | ⟨.gradient x _, _⟩ => some x
    | _ => none

@[simp] theorem iterates_append (t u : Transcript α) :
    iterates (t ++ u) = iterates t ++ iterates u := List.filterMap_append

/-- The calls of the update rule: the approximation, the step, and the change of gradient. -/
def corrections (t : Transcript α) : List (Mat α × Vec α × Vec α) :=
  t.filterMap fun
    | ⟨.update b dx dg, _⟩ => some (b, dx, dg)
    | _ => none

@[simp] theorem corrections_append (t u : Transcript α) :
    corrections (t ++ u) = corrections t ++ corrections u := List.filterMap_append

@[simp] theorem updates_append (t u : Transcript α) :
    updates (t ++ u) = updates t ++ updates u := List.filterMap_append

@[simp] theorem iterates_objective_cons (x : Vec α) (v : α) (t : Transcript α) :
    iterates (⟨.objective x, v⟩ :: t) = iterates t := rfl

@[simp] theorem progress_objective_cons (x : Vec α) (v : α) (t : Transcript α) :
    progress (⟨.objective x, v⟩ :: t) = progress t := rfl

@[simp] theorem iterates_nil : iterates ([] : Transcript α) = [] := rfl

@[simp] theorem progress_nil : progress ([] : Transcript α) = [] := rfl

@[simp] theorem evaluations_ofPlan (u : Dialogue.Record (fun _ : Vec α => α)) :
    evaluations (Run.ofPlan u) = u.map fun e => (e.question, e.answer) := by
  rw [evaluations, Run.ofPlan, List.filterMap_map]
  exact congrFun List.filterMap_eq_map u

@[simp] theorem iterates_ofPlan (u : Dialogue.Record (fun _ : Vec α => α)) :
    iterates (Run.ofPlan u) = [] := by
  simp [iterates, Run.ofPlan, List.filterMap_map]

@[simp] theorem progress_ofPlan (u : Dialogue.Record (fun _ : Vec α => α)) :
    progress (Run.ofPlan u) = [] := by
  simp [progress, Run.ofPlan, List.filterMap_map]

/-! ### What the callbacks of a transcript are like -/

/-- The objective is the function `f`. -/
def ObjectiveIs (f : Vec α → α) (t : Transcript α) : Prop := ∀ p ∈ t.evaluations, p.2 = f p.1

@[simp] theorem objectiveIs_append_iff {f : Vec α → α} {t u : Transcript α} :
    ObjectiveIs f (t ++ u) ↔ ObjectiveIs f t ∧ ObjectiveIs f u := by
  simp only [ObjectiveIs, evaluations_append, List.mem_append, or_imp, forall_and]

/-- The changes that the update rule gives have the shape of the approximation. -/
def KeepsShape (t : Transcript α) : Prop :=
  ∀ b dx dg db, ⟨.update b dx dg, .ok db⟩ ∈ t → Mat.SameShape db b

@[simp] theorem keepsShape_append_iff {t u : Transcript α} :
    KeepsShape (t ++ u) ↔ KeepsShape t ∧ KeepsShape u := by
  simp only [KeepsShape, List.mem_append, or_imp, forall_and]

/-- The changes that the update rule gives to an approximation with a single row have rows. -/
def KeepsRows (t : Transcript α) : Prop :=
  ∀ b dx dg db, ⟨.update b dx dg, .ok db⟩ ∈ t → b.height = 1 → 0 < db.height

@[simp] theorem keepsRows_append_iff {t u : Transcript α} :
    KeepsRows (t ++ u) ↔ KeepsRows t ∧ KeepsRows u := by
  simp only [KeepsRows, List.mem_append, or_imp, forall_and]

theorem KeepsShape.keepsRows {t : Transcript α} (h : t.KeepsShape) : t.KeepsRows :=
  fun b dx dg db hx hb => Nat.lt_of_lt_of_eq Nat.one_pos ((h b dx dg db hx).1.trans hb).symm

/-- The estimator of gradients is `est`. -/
def EstimatorIs (est : Vec α → α → Plan α (Vec α)) (t : Transcript α) : Prop :=
  ∀ x h plan, ⟨.gradient x h, plan⟩ ∈ t → plan = est x h

@[simp] theorem estimatorIs_append_iff {est : Vec α → α → Plan α (Vec α)} {t u : Transcript α} :
    EstimatorIs est (t ++ u) ↔ EstimatorIs est t ∧ EstimatorIs est u := by
  simp only [EstimatorIs, List.mem_append, or_imp, forall_and]

/-- The update rule is `rule`. -/
def UpdateIs (rule : Mat α → Vec α → Vec α → Except (Failure α) (Mat α)) (t : Transcript α) :
    Prop :=
  ∀ b dx dg answer, ⟨.update b dx dg, answer⟩ ∈ t → answer = rule b dx dg

/-- Neither the constraints nor the update rule are called. -/
def Evaluates (t : Transcript α) : Prop :=
  ∀ x ∈ t, (∀ y, x.question ≠ .constraints y) ∧ ∀ b dx dg, x.question ≠ .update b dx dg

theorem Evaluates.updates {t : Transcript α} (h : t.Evaluates) : t.updates = [] := by
  rw [Transcript.updates, List.filterMap_eq_nil_iff]
  rintro ⟨q, a⟩ hx
  cases q with
  | update b dx dg => exact absurd rfl ((h _ hx).2 b dx dg)
  | _ => rfl

theorem Evaluates.corrections {t : Transcript α} (h : t.Evaluates) : t.corrections = [] := by
  rw [Transcript.corrections, List.filterMap_eq_nil_iff]
  rintro ⟨q, a⟩ hx
  cases q with
  | update b dx dg => exact absurd rfl ((h _ hx).2 b dx dg)
  | _ => rfl

@[simp] theorem evaluates_append_iff {t u : Transcript α} :
    Evaluates (t ++ u) ↔ Evaluates t ∧ Evaluates u := List.forall_mem_append

@[simp] theorem evaluates_objective_cons_iff {x : Vec α} {v : α} {t : Transcript α} :
    Evaluates (⟨.objective x, v⟩ :: t) ↔ Evaluates t := by
  simp [Evaluates]

@[simp] theorem evaluates_ofPlan (u : Dialogue.Record (fun _ : Vec α => α)) :
    Evaluates (Run.ofPlan u) := by
  simp [Evaluates, Run.ofPlan]

/-- The constraints are not evaluated. -/
def Unconstrained (t : Transcript α) : Prop := ∀ x ∈ t, ∀ y, x.question ≠ .constraints y

theorem unconstrained_nil : Unconstrained ([] : Transcript α) := List.forall_mem_nil _

theorem Evaluates.unconstrained {t : Transcript α} (h : t.Evaluates) : t.Unconstrained :=
  fun x hx => (h x hx).1

@[simp] theorem unconstrained_append_iff {t u : Transcript α} :
    Unconstrained (t ++ u) ↔ Unconstrained t ∧ Unconstrained u := List.forall_mem_append

/-- Only the update rule is called, and notes are written. -/
def Aside (t : Transcript α) : Prop :=
  ∀ x ∈ t, (∃ b dx dg, x.question = .update b dx dg) ∨ ∃ n, x.question = .note n

theorem Aside.unconstrained {t : Transcript α} (h : t.Aside) : t.Unconstrained := by
  intro x hx y
  rcases h x hx with ⟨b, dx, dg, hq⟩ | ⟨n, hq⟩ <;> rw [hq] <;> exact nofun

theorem Aside.evaluations {t : Transcript α} (h : t.Aside) : t.evaluations = [] := by
  rw [Transcript.evaluations, List.filterMap_eq_nil_iff]
  rintro ⟨q, a⟩ hx
  rcases h _ hx with ⟨b, dx, dg, rfl⟩ | ⟨n, rfl⟩ <;> rfl

theorem Aside.progress {t : Transcript α} (h : t.Aside) : t.progress = [] := by
  rw [Transcript.progress, List.filterMap_eq_nil_iff]
  rintro ⟨q, a⟩ hx
  rcases h _ hx with ⟨b, dx, dg, rfl⟩ | ⟨n, rfl⟩ <;> rfl

theorem Aside.iterates {t : Transcript α} (h : t.Aside) : t.iterates = [] := by
  rw [Transcript.iterates, List.filterMap_eq_nil_iff]
  rintro ⟨q, a⟩ hx
  rcases h _ hx with ⟨b, dx, dg, rfl⟩ | ⟨n, rfl⟩ <;> rfl

end Transcript

namespace Callbacks

variable {α β σ : Type}

/-- The objective is the function `f`, whatever the state. -/
def ObjectiveIs (problem : Callbacks (StateM σ) α) (f : Vec α → α) : Prop :=
  ∀ x s, ((problem.objective x).run s).1 = f x

/-- The estimator of gradients is `est`, whatever the state. -/
def EstimatorIs (problem : Callbacks (StateM σ) α) (est : Vec α → α → Plan α (Vec α)) : Prop :=
  ∀ x h s, ((problem.gradient x h).run s).1 = est x h

/-- A change that the update rule gives has the shape of the approximation. -/
def KeepsShape (problem : Callbacks (StateM σ) α) : Prop :=
  ∀ b dx dg s db, ((problem.update b dx dg).run s).1 = .ok db → Mat.SameShape db b

/-- The update rule is `rule`, whatever the state. -/
def UpdateIs (problem : Callbacks (StateM σ) α)
    (rule : Mat α → Vec α → Vec α → Except (Failure α) (Mat α)) : Prop :=
  ∀ b dx dg s, ((problem.update b dx dg).run s).1 = rule b dx dg

variable {problem : Callbacks (StateM σ) α} {run : Run α β} {s : σ}

theorem ObjectiveIs.recordOn {f : Vec α → α} (h : problem.ObjectiveIs f) :
    Transcript.ObjectiveIs f ((run.recordOn problem).run s).1.2 := by
  rintro ⟨x, v⟩ hp
  obtain ⟨s', hs'⟩ := Run.answer_of_recordOn (Transcript.mem_evaluations_iff.mp hp)
  exact hs'.symm.trans (h x s')

theorem EstimatorIs.recordOn {est : Vec α → α → Plan α (Vec α)} (h : problem.EstimatorIs est) :
    Transcript.EstimatorIs est ((run.recordOn problem).run s).1.2 := by
  intro x h' plan hx
  obtain ⟨s', hs'⟩ := Run.answer_of_recordOn hx
  exact hs'.symm.trans (h x h' s')

theorem KeepsShape.recordOn (h : problem.KeepsShape) :
    Transcript.KeepsShape ((run.recordOn problem).run s).1.2 := by
  intro b dx dg db hx
  obtain ⟨s', hs'⟩ := Run.answer_of_recordOn hx
  exact h b dx dg s' db hs'

theorem UpdateIs.recordOn {rule : Mat α → Vec α → Vec α → Except (Failure α) (Mat α)}
    (h : problem.UpdateIs rule) :
    Transcript.UpdateIs rule ((run.recordOn problem).run s).1.2 := by
  intro b dx dg answer hx
  obtain ⟨s', hs'⟩ := Run.answer_of_recordOn hx
  exact hs'.symm.trans (h b dx dg s')

end Callbacks

end Optimum
