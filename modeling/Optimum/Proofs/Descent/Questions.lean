import Optimum.Proofs.Descent.Methods

/-!
# The questions of a descent

Which questions a run can ask is seen from its text, without knowing the answers: there is a rule
for each way of putting runs together. To evaluate its objective a descent asks for values and for
estimates, and notes what its line searches do; a whole run also calls the update rule, tells the
monitor and notes its course. It never calls the constraints, and notes nothing of outer iterations.

What only asks for values, estimates and constraints, or notes the details of a search, is quiet: the
course of a run does not show it.
-/

namespace Optimum

variable {α β γ : Type}

/-- A question for a value of the objective, or for an estimate of its gradient. -/
def Question.Sampling : Question α → Prop
  | .objective _ => True
  | .gradient _ _ => True
  | _ => False

/-- A question that a descent asks when it evaluates its objective. -/
def Question.Evaluating : Question α → Prop
  | .objective _ => True
  | .gradient _ _ => True
  | .note (.searchStopped _) => True
  | .note (.searchDone ..) => True
  | .note (.notBracketed _) => True
  | _ => False

/-- A question that a descent asks at all. -/
def Question.OfDescent : Question α → Prop
  | .constraints _ => False
  | .note (.outer ..) => False
  | .note (.outerExit ..) => False
  | _ => True

/-- A question of which neither the log without details, nor the monitor, nor the update rule is
told. -/
def Question.Quiet : Question α → Prop
  | .update _ _ _ => False
  | .progress _ => False
  | .note n => n.level = .trace
  | _ => True

theorem Question.Sampling.evaluating {q : Question α} (h : q.Sampling) : q.Evaluating := by
  cases q <;> trivial

theorem Question.Sampling.quiet {q : Question α} (h : q.Sampling) : q.Quiet := by
  cases q <;> trivial

theorem Question.Evaluating.ofDescent {q : Question α} (h : q.Evaluating) : q.OfDescent := by
  rcases q with _ | _ | _ | _ | _ | n
  case note => cases n <;> trivial
  all_goals trivial

namespace Run

/-- Whatever the answers, all questions of the run are as `P` says. -/
def AsksOnly (P : Question α → Prop) (run : Run α β) : Prop :=
  ∀ t r, Ends run t r → ∀ x ∈ t, P x.question

namespace AsksOnly

variable {P P' : Question α → Prop} {x : Run α β}

theorem mono (h : AsksOnly P x) (hP : ∀ q, P q → P' q) : AsksOnly P' x :=
  fun t r ht y hy => hP _ (h t r ht y hy)

theorem quiet (h : AsksOnly Question.Sampling x) : AsksOnly Question.Quiet x :=
  h.mono fun _ => Question.Sampling.quiet

theorem pure (b : β) : AsksOnly P (Pure.pure b : Run α β) := by
  intro t r h
  obtain ⟨rfl, -⟩ := ends_pure_iff.mp h
  exact nofun

theorem throw (e : Failure α) : AsksOnly P (MonadExcept.throw e : Run α β) := by
  intro t r h
  obtain ⟨rfl, -⟩ := ends_throw_iff.mp h
  exact nofun

theorem check (x : Except (Failure α) β) : AsksOnly P (liftM x : Run α β) := by
  intro t r h
  obtain ⟨rfl, -⟩ := ends_liftM_iff.mp h
  exact nofun

theorem query {q : Question α} (hq : P q) : AsksOnly P (Run.query q) := by
  intro t r h
  obtain ⟨a, rfl, -⟩ := ends_query_iff.mp h
  exact List.forall_mem_singleton.mpr hq

theorem bind {f : β → Run α γ} (hx : AsksOnly P x) (hf : ∀ b, AsksOnly P (f b)) :
    AsksOnly P (x >>= f) := by
  intro t r h
  rcases ends_bind_iff.mp h with ⟨e, h₁, -⟩ | ⟨t₁, b, t₂, h₁, h₂, rfl⟩
  · exact hx t _ h₁
  · exact List.forall_mem_append.mpr ⟨hx _ _ h₁, hf b _ _ h₂⟩

theorem ite {p : Prop} [Decidable p] {x y : Run α β} (hx : AsksOnly P x) (hy : AsksOnly P y) :
    AsksOnly P (if p then x else y) := by
  split
  · exact hx
  · exact hy

/-- A dialogue that is answered by runs. -/
theorem run {Q : Type} {A : Q → Type} {answer : (q : Q) → Run α (A q)}
    (h : ∀ q, AsksOnly P (answer q)) (d : Dialogue A β) : AsksOnly P (d.run answer) := by
  induction d with
  | done b => exact pure b
  | ask q next ih => exact bind (h q) ih

theorem notes {ns : List (Note α)} (h : ∀ n ∈ ns, P (.note n)) :
    AsksOnly P (ns.forM Run.note) := by
  intro t r ht y hy
  obtain ⟨rfl, -⟩ := ends_forM_note_iff.mp ht
  obtain ⟨n, hn, rfl⟩ := List.mem_map.mp hy
  exact h n hn

variable [Scalar α]

/-! ### Evaluation -/

theorem sampling_alongLine (x s : Vec α) (a : α) :
    AsksOnly Question.Sampling (Run.alongLine x s a) :=
  bind (query trivial) fun v => ite (pure v) (throw _)

theorem lineSearch (opt : Options α) (x s : Vec α) (f₀ : α) :
    AsksOnly Question.Evaluating (Run.lineSearch opt x s f₀) := by
  have halong : ∀ a, AsksOnly Question.Evaluating (Run.alongLine x s a) := fun a =>
    (sampling_alongLine x s a).mono fun _ => Question.Sampling.evaluating
  refine bind (run halong _) fun found => bind (notes fun n hn => ?_) fun _ =>
    bind (halong 1) fun f₁ => ?_
  · unfold Found.notes at hn
    split at hn
    · rcases List.mem_cons.mp hn with rfl | hn
      · trivial
      · rw [List.mem_singleton.mp hn]
        trivial
    · rw [List.mem_singleton.mp hn]
      trivial
  · exact ite (pure _) (bind (query trivial) fun _ => pure _)

theorem sampling_finiteGradient (x : Vec α) (h : α) :
    AsksOnly Question.Sampling (Run.finiteGradient x h) :=
  bind (bind (query trivial) (run fun _ => query trivial)) fun g =>
    ite (throw _) (ite (throw _) (pure g))

theorem sampling_finiteObjective (x : Vec α) :
    AsksOnly Question.Sampling (Run.finiteObjective x) :=
  bind (query trivial) fun v => ite (pure v) (throw _)

theorem sampling_iterate (x : Vec α) (h : α) : AsksOnly Question.Sampling (Run.iterate x h) :=
  bind (sampling_finiteObjective x) fun _ => bind (sampling_finiteGradient x h) fun _ => pure _

theorem finiteGradient (x : Vec α) (h : α) :
    AsksOnly Question.Evaluating (Run.finiteGradient x h) :=
  (sampling_finiteGradient x h).mono fun _ => Question.Sampling.evaluating

theorem finiteObjective (x : Vec α) : AsksOnly Question.Evaluating (Run.finiteObjective x) :=
  (sampling_finiteObjective x).mono fun _ => Question.Sampling.evaluating

theorem iterate (x : Vec α) (h : α) : AsksOnly Question.Evaluating (Run.iterate x h) :=
  (sampling_iterate x h).mono fun _ => Question.Sampling.evaluating

theorem stepAlong (opt : Options α) (it : Iterate α) (s : Vec α) :
    AsksOnly Question.Evaluating (Run.stepAlong opt it s) :=
  bind (lineSearch _ _ _ _) fun _ => bind (iterate _ _) fun _ => pure _

/-! ### Whole runs -/

theorem absorb (method : Method) (n : Nat) (prev next : Iterate α) (memory : method.Memory α) :
    AsksOnly Question.OfDescent ((method.strategy n).absorb prev next memory) := by
  cases method with
  | steepestDescent => exact pure ()
  | conjugateGradient => exact pure _
  | quasiNewton =>
    refine bind (query trivial) fun answer => ?_
    rcases answer with (_ | _ | _ | c | _) | db
    case ok => exact pure _
    case error.illConditionedUpdate => exact bind (query trivial) fun _ => pure _
    all_goals exact throw _

theorem descend (method : Method) (n : Nat) (opt : Options α) (left k : Nat) (it : Iterate α)
    (memory : method.Memory α) :
    AsksOnly Question.OfDescent (Run.descend (method.strategy n) opt left k it memory) := by
  have hiteration : ∀ k it memory,
      AsksOnly Question.OfDescent (Run.iteration (method.strategy n) opt k it memory) :=
    fun k it memory => bind ((stepAlong _ _ _).mono fun _ => Question.Evaluating.ofDescent) fun _ =>
      bind (query trivial) fun _ => bind (query trivial) fun _ => pure _
  have hfinish : ∀ (i : Iteration α (method.Memory α)) flag,
      AsksOnly Question.OfDescent (Run.finish i flag) :=
    fun i flag => bind (query trivial) fun _ => pure _
  induction left generalizing k it memory with
  | zero => exact bind (hiteration k it memory) fun i => hfinish i _
  | succ left ih =>
    refine bind (hiteration k it memory) fun i => ?_
    dsimp only
    split
    · exact hfinish i _
    · exact bind (absorb method n _ _ _) fun m => ih _ _ m

/-- A run of a method neither calls the constraints nor notes anything of outer iterations. -/
theorem solve (method : Method) (opt : Options α) (x₀ : Vec α) :
    AsksOnly Question.OfDescent (method.solve opt x₀) := by
  rw [Method.solve_eq]
  refine bind (check _) fun _ => ?_
  cases x₀ with
  | nil => exact throw _
  | cons a x =>
    have hstart := (iterate (a :: x) opt.fdStep).mono fun _ => Question.Evaluating.ofDescent
    exact bind hstart fun it => descend method _ opt _ _ it _

end AsksOnly

end Run

/-! ### Quiet transcripts -/

namespace Transcript

variable {t u : Transcript α}

/-- All questions are quiet. -/
def Quiet (t : Transcript α) : Prop := ∀ x ∈ t, x.question.Quiet

theorem Quiet.append (ht : t.Quiet) (hu : u.Quiet) : (t ++ u).Quiet :=
  List.forall_mem_append.mpr ⟨ht, hu⟩

theorem Quiet.progress (h : t.Quiet) : t.progress = [] := by
  rw [Transcript.progress, List.filterMap_eq_nil_iff]
  rintro ⟨q, a⟩ hx
  cases q with
  | progress p => exact (h _ hx).elim
  | _ => rfl

theorem Quiet.updates (h : t.Quiet) : t.updates = [] := by
  rw [Transcript.updates, List.filterMap_eq_nil_iff]
  rintro ⟨q, a⟩ hx
  cases q with
  | update b dx dg => exact (h _ hx).elim
  | _ => rfl

end Transcript

end Optimum
