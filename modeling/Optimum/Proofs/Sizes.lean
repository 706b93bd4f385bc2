import Optimum.Proofs.Descent.Failures
import Optimum.Proofs.Lagrangian.Paths
import Optimum.Proofs.Lagrangian.Session
import Optimum.Scaling

/-!
# Sizes that do not match

A failure about sizes names two of them, the one expected and the one found. Each check compares the two
that it names, so that these differ, with one exception. An update rule wants an approximation with as
many rows as the step has elements, and as many columns; it names the number of rows as the one found,
also where only the number of columns is not as it should be. Then both sizes named are the same.

A run does not come to this by itself, since it asks its update rule about matching sizes only. So what
a run says of sizes is informative, unless it repeats what an update rule of the caller's says.

## What is proved

* `UpdateRule.tellsSizes_of_checkSizes` and `UpdateRule.checkSizes_of_oblong`: the exception.
* `Run.MindsSizes` is what a part of a run guarantees, with a rule for sequences (`Run.MindsSizes.bind`)
  and one for runs under a Lagrangian (`Run.MindsSizes.under`). `Run.MindsSizes.outerIteration` is the
  step lemma, and `Run.MindsSizes.outerDescend` follows by induction on the iterations left.
* `Session.tellsSizes_of_run`: the failures taken from a Lagrangian in use.
* `Failure.tellsSizes_of_call`: all of it, for every call.
-/

namespace Optimum

open Scalar

variable {α : Type}

/-- If the failure is about sizes, it names two different ones. -/
def Failure.TellsSizes (e : Failure α) : Prop :=
  ∀ what expected found, e = .dimensionMismatch what expected found → expected ≠ found

theorem Failure.tellsSizes_of_ne {what : Quantity} {n m : Nat} (h : n ≠ m) :
    (dimensionMismatch what n m : Failure α).TellsSizes := by
  rintro _ _ _ ⟨⟩
  exact h

/-! ### Checks -/

section Checks

variable {e : Failure α} {x reference : Vec α}

theorem Failure.OfIteration.tellsSizes (h : e.OfIteration) : e.TellsSizes := by
  cases h with
  | length hne => exact Failure.tellsSizes_of_ne hne
  | _ => exact nofun

theorem tellsSizes_of_checkReference (h : checkReference x reference = .error e) :
    e.TellsSizes := by
  unfold checkReference at h
  split at h
  next hne =>
    cases h
    exact Failure.tellsSizes_of_ne hne
  next => cases h

/-- Scaling fails if the check does. -/
private theorem tellsSizes_of_scaled {y : Vec α}
    (h : (do checkReference x reference; pure y) = .error e) : e.TellsSizes := by
  cases hcheck : checkReference x reference with
  | ok u =>
    rw [hcheck] at h
    cases h
  | error e' =>
    rw [hcheck] at h
    cases h
    exact tellsSizes_of_checkReference hcheck

variable [Scalar α]

theorem tellsSizes_of_scale (h : scale x reference = .error e) : e.TellsSizes :=
  tellsSizes_of_scaled h

theorem tellsSizes_of_descale (h : descale x reference = .error e) : e.TellsSizes :=
  tellsSizes_of_scaled h

theorem Residuals.Fault.tellsSizes {r : Residuals α} {ng nh : Nat} (h : r.Fault ng nh e) :
    e.TellsSizes := by
  cases h with
  | inequalities hne => exact Failure.tellsSizes_of_ne hne.symm
  | equalities _ hne => exact Failure.tellsSizes_of_ne hne.symm
  | notFinite _ _ _ _ => exact nofun

theorem Residuals.tellsSizes_of_check {r : Residuals α} {ng nh : Nat}
    (h : r.check ng nh = .error e) : e.TellsSizes :=
  (Residuals.check_eq_error_iff.mp h).tellsSizes

end Checks

/-! ### Update rules -/

namespace UpdateRule

variable {b : Mat α} {dx dg : Vec α} {e : Failure α}

/-- All sizes match, apart from the number of columns. -/
def Oblong (b : Mat α) (dx dg : Vec α) : Prop :=
  dg.length = dx.length ∧ b.height = dx.length ∧ b.width ≠ dx.length

instance (b : Mat α) (dx dg : Vec α) : Decidable (Oblong b dx dg) :=
  inferInstanceAs (Decidable (_ ∧ _))

theorem checkSizes_of_oblong (h : Oblong b dx dg) :
    checkSizes b dx dg = .error (.dimensionMismatch .inverseHessian dx.length dx.length) := by
  obtain ⟨hdg, hheight, hwidth⟩ := h
  have hsquare : ¬ b.IsSquare dx.length := fun h => hwidth h.2
  rw [checkSizes, if_neg (not_not.mpr hdg), if_pos hsquare, hheight]

theorem tellsSizes_of_checkSizes (h : checkSizes b dx dg = .error e) :
    e.TellsSizes ∨ Oblong b dx dg := by
  unfold checkSizes at h
  split_ifs at h with hdg hsquare
  · cases h
    exact .inl (Failure.tellsSizes_of_ne (Ne.symm hdg))
  · cases h
    by_cases hheight : b.height = dx.length
    · exact .inr ⟨not_not.mp hdg, hheight, fun hwidth => hsquare ⟨hheight, hwidth⟩⟩
    · exact .inl (Failure.tellsSizes_of_ne (Ne.symm hheight))

end UpdateRule

/-! ### Parts of runs -/

section Runs

variable {β γ : Type}

/-- An outcome tells sizes, unless it repeats a failure of the update rule; and the rule is asked about
matching sizes only, as long as it keeps the shape. -/
structure Transcript.MindsSizes (t : Transcript α) (r : Except (Failure α) β) : Prop where
  /-- The failure. -/
  failure : ∀ e, r = .error e → e.TellsSizes ∨ t.RuleFails e
  /-- The questions for the update rule. -/
  asked : t.KeepsShape → t.AsksMatching

/-- Whatever the answers, the run does so. -/
def Run.MindsSizes (run : Run α β) : Prop := ∀ t r, Run.Ends run t r → t.MindsSizes r

/-- A question other than one for the update rule. -/
def Question.Apart (q : Question α) : Prop := ∀ b dx dg, q ≠ .update b dx dg

theorem Question.Sampling.apart {q : Question α} (h : q.Sampling) : q.Apart := by
  rintro b dx dg rfl
  exact h

namespace Run.MindsSizes

/-- A part that does not call the update rule. -/
theorem of_apart {run : Run α β} (hasks : AsksOnly Question.Apart run)
    (hfails : ∀ t e, Ends run t (.error e) → e.TellsSizes) : MindsSizes run := by
  intro t r h
  refine ⟨fun e he => .inl (hfails t e (he ▸ h)), fun _ b dx dg answer hx => ?_⟩
  exact absurd rfl (hasks t r h _ hx b dx dg)

theorem pure (b : β) : MindsSizes (Pure.pure b : Run α β) :=
  of_apart (.pure b) fun _ _ h => nomatch (ends_pure_iff.mp h).2

theorem check {x : Except (Failure α) β} (hx : ∀ e, x = .error e → e.TellsSizes) :
    MindsSizes (liftM x : Run α β) :=
  of_apart (.check x) fun _ e h => hx e (ends_liftM_iff.mp h).2.symm

theorem throw {e : Failure α} (he : e.TellsSizes) :
    MindsSizes (MonadExcept.throw e : Run α β) := by
  refine of_apart (.throw e) fun _ e' h => ?_
  cases (ends_throw_iff.mp h).2
  exact he

theorem query {q : Question α} (hq : q.Apart) : MindsSizes (Run.query q) :=
  of_apart (.query hq) fun _ _ h => nomatch (ends_query_iff.mp h).choose_spec.2

theorem bind {x : Run α β} {f : β → Run α γ} (hx : MindsSizes x) (hf : ∀ b, MindsSizes (f b)) :
    MindsSizes (x >>= f) := by
  intro t r h
  rcases ends_bind_iff.mp h with ⟨e, h₁, rfl⟩ | ⟨t₁, b, t₂, h₁, h₂, rfl⟩
  · obtain ⟨hfailure, hasked⟩ := hx t _ h₁
    refine ⟨fun e' he' => ?_, hasked⟩
    cases he'
    exact hfailure e rfl
  · obtain ⟨-, hasked₁⟩ := hx t₁ _ h₁
    obtain ⟨hfailure, hasked₂⟩ := hf b t₂ r h₂
    refine ⟨fun e he => ?_, fun hshape b dx dg answer hx => ?_⟩
    · exact (hfailure e he).imp_right (·.mono (List.subset_append_right _ _))
    · obtain ⟨hshape₁, hshape₂⟩ := Transcript.keepsShape_append_iff.mp hshape
      rcases List.mem_append.mp hx with hx | hx
      · exact hasked₁ hshape₁ b dx dg answer hx
      · exact hasked₂ hshape₂ b dx dg answer hx

/-- The constraints, evaluated and checked in some way. -/
theorem checked {check : Residuals α → Except (Failure α) Unit}
    (hcheck : ∀ r e, check r = .error e → e.TellsSizes) (x : Vec α) :
    MindsSizes (do
      let r ← constraints x
      check r
      Pure.pure r) :=
  bind (query (q := .constraints x) nofun) fun r =>
    bind (MindsSizes.check (hcheck r)) fun _ => pure r

variable [Scalar α]

/-- A run of a method. -/
theorem solve (method : Method) (opt : Options α) (x₀ : Vec α) :
    MindsSizes (method.solve opt x₀) := by
  intro t r h
  refine ⟨fun e he => ?_, Method.matching_of_ends h⟩
  rw [he] at h
  rcases Method.failure_of_ends h with ⟨fault, rfl⟩ | rfl | hiteration | hrule
  · exact .inl nofun
  · exact .inl nofun
  · exact .inl hiteration.tellsSizes
  · exact .inr hrule

end Run.MindsSizes

/-! ### Runs under a Lagrangian -/

section Under

variable [Scalar α] {l : Lagrangian α} {kept kept' : Kept α} {t u : Transcript α}

omit [Scalar α] in
/-- Keeping a failure that tells sizes leaves one that does. -/
theorem Kept.tellsSizes_keep {e : Failure α} (he : e.TellsSizes)
    (hkept : ∀ e, kept = some e → e.TellsSizes) : ∀ e', kept.keep e = some e' → e'.TellsSizes := by
  intro e' he'
  cases kept with
  | none =>
    cases he'
    exact he
  | some e₀ => exact hkept e' he'

/-- A failure that a Lagrangian keeps tells sizes. -/
theorem Lagrangian.Relayed.tellsSizes (h : l.Relayed kept t u kept')
    (hkept : ∀ e, kept = some e → e.TellsSizes) : ∀ e, kept' = some e → e.TellsSizes := by
  induction h with
  | nil => exact hkept
  | fails hcheck _ ih =>
    exact ih (Kept.tellsSizes_keep (Residuals.tellsSizes_of_check hcheck) hkept)
  | evaluates _ _ ih => exact ih hkept
  | withholds _ ih => exact ih hkept
  | passes _ _ _ ih => exact ih hkept

/-- A question for the update rule is one of the run. -/
theorem Lagrangian.Relayed.update_mem (h : l.Relayed kept t u kept') {b : Mat α} {dx dg : Vec α}
    {answer : Except (Failure α) (Mat α)} (hx : ⟨.update b dx dg, answer⟩ ∈ u) :
    ⟨.update b dx dg, answer⟩ ∈ t := by
  induction h with
  | nil => exact hx
  | fails _ _ ih =>
    rcases List.mem_cons.mp hx with heq | hx
    · cases heq
    · exact List.mem_cons_of_mem _ (ih hx)
  | evaluates _ _ ih =>
    rcases List.mem_cons.mp hx with heq | hx
    · cases heq
    rcases List.mem_cons.mp hx with heq | hx
    · cases heq
    · exact List.mem_cons_of_mem _ (ih hx)
  | withholds _ ih => exact List.mem_cons_of_mem _ (ih hx)
  | passes _ _ _ ih =>
    rcases List.mem_cons.mp hx with rfl | hx
    · exact List.mem_cons_self
    · exact List.mem_cons_of_mem _ (ih hx)

/-- **A run under a Lagrangian minds the sizes if the run does.** What stands for its failure is the
fault of residuals, which tells sizes. -/
theorem Run.MindsSizes.under {run : Run α β} (h : MindsSizes run) (l : Lagrangian α) :
    MindsSizes (Run.under l run) := by
  intro u r hend
  obtain ⟨t, r', kept, hrun, hrelayed, rfl⟩ := Lagrangian.ends_under hend
  obtain ⟨hfailure, hasked⟩ := h t r' hrun
  refine ⟨fun e he => ?_, fun hshape b dx dg answer hx => ?_⟩
  · cases r' with
    | ok b => cases he
    | error e' =>
      have hkept := hrelayed.tellsSizes nofun
      cases kept with
      | some e₀ =>
        cases he
        exact .inl (hkept e₀ rfl)
      | none =>
        cases he
        refine (hfailure e' rfl).imp_right fun ⟨b, dx, dg, hmem⟩ => ?_
        exact ⟨b, dx, dg, hrelayed.mem hmem nofun nofun⟩
  · refine hasked (fun b dx dg db hx => ?_) b dx dg answer (hrelayed.update_mem hx)
    exact hshape b dx dg db (hrelayed.mem hx nofun nofun)

/-! ### The augmented Lagrangian method -/

namespace Run.MindsSizes

theorem finiteObjective (x : Vec α) : MindsSizes (Run.finiteObjective x) := by
  refine of_apart ((AsksOnly.sampling_finiteObjective x).mono fun _ => Question.Sampling.apart)
    fun t e h => ?_
  obtain ⟨v, -, hv⟩ := ends_finiteObjective_iff.mp h
  split at hv
  next => cases hv
  next =>
    cases hv
    exact nofun

theorem finiteGradient (x : Vec α) (h : α) : MindsSizes (Run.finiteGradient x h) :=
  of_apart ((AsksOnly.sampling_finiteGradient x h).mono fun _ => Question.Sampling.apart)
    fun _ _ hend => (ofIteration_of_ends_finiteGradient hend).tellsSizes

variable {opt : Options α} {lagOpt : LagrangianOptions α}

/-- **An outer iteration minds the sizes.** -/
theorem outerIteration (k : Nat) (it : OuterIterate α) :
    MindsSizes (Run.outerIteration opt lagOpt k it) := by
  refine bind ((solve .quasiNewton lagOpt.inner it.x).under _) fun inner => ?_
  refine bind (checked (fun r e => Residuals.tellsSizes_of_check) inner.x) fun r => ?_
  refine bind ((finiteGradient inner.x opt.fdStep).under _) fun g => ?_
  refine bind (finiteObjective inner.x) fun f => ?_
  exact bind (query nofun) fun _ => bind (query nofun) fun _ => pure _

theorem outerDescend (left k : Nat) (it : OuterIterate α) :
    MindsSizes (Run.outerDescend opt lagOpt left k it) := by
  have finish : ∀ (i : OuterIteration α) flag, MindsSizes (Run.outerFinish i flag) :=
    fun i flag => bind (query nofun) fun _ => pure _
  induction left generalizing k it with
  | zero => exact bind (outerIteration k it) fun i => finish i _
  | succ left ih =>
    refine bind (outerIteration k it) fun i => ?_
    dsimp only
    split
    · exact finish i _
    · exact ih _ _

/-- **A run of the augmented Lagrangian method minds the sizes.** -/
theorem augmentedLagrangian (opt : Options α) (lagOpt : LagrangianOptions α) (x₀ : Vec α) :
    MindsSizes (Run.augmentedLagrangian opt lagOpt x₀) := by
  refine bind (check fun e he => ?_) fun _ => bind (check fun e he => ?_) fun _ => ?_
  · unfold Options.validate at he
    split at he
    · cases he
      exact nofun
    · cases he
  · unfold LagrangianOptions.validate at he
    split at he
    · cases he
      exact nofun
    · cases he
  · cases x₀ with
    | nil => exact throw nofun
    | cons v x =>
      refine bind (checked (fun r e he => ?_) _) fun r => ?_
      · obtain ⟨-, rfl⟩ := Residuals.checkFinite_eq_error_iff.mp he
        exact nofun
      · exact bind (finiteObjective _) fun f => outerDescend _ _ _

end Run.MindsSizes

end Under

end Runs

/-! ### A Lagrangian in use -/

namespace Session

variable [Scalar α] {σ : Type} {s : Session α σ}

/-- A use of a Lagrangian that keeps a failure which tells sizes gives such a failure, and keeps one. -/
theorem tellsSizes_of_perform (problem : Callbacks (StateM σ) α)
    (h : ∀ e, s.kept = some e → e.TellsSizes) (u : Use α) :
    let p := (u.perform problem).run s
    (∀ e, p.1 = .taken (some e) → e.TellsSizes) ∧ ∀ e, p.2.kept = some e → e.TellsSizes := by
  cases u with
  | evaluate x =>
    refine ⟨nofun, ?_⟩
    let dialogue := (s.lagrangian.evaluation x).run s.kept
    let record := (dialogue.record problem.answer).run s.state
    have hends : dialogue.Ends record.1.2 record.1.1 := Dialogue.ends_record dialogue s.state
    change ∀ e, record.1.1.2 = some e → e.TellsSizes
    obtain ⟨r, ⟨e, hcheck, -, hout⟩ | ⟨-, v, -, hout⟩⟩ := Lagrangian.ends_evaluation_iff.mp hends
    · rw [hout]
      exact Kept.tellsSizes_keep (Residuals.tellsSizes_of_check hcheck) h
    · rw [hout]
      exact h
  | take =>
    refine ⟨fun e he => h e ?_, nofun⟩
    exact Event.taken.inj he
  | lookUp => exact ⟨nofun, h⟩
  | reassign lam => exact ⟨nofun, h⟩

/-- So do uses in sequence, by induction on them. -/
theorem tellsSizes_of_run (problem : Callbacks (StateM σ) α)
    (h : ∀ e, s.kept = some e → e.TellsSizes) (uses : List (Use α)) :
    ∀ e, .taken (some e) ∈ ((uses.mapM (Use.perform problem)).run s).1 → e.TellsSizes := by
  induction uses generalizing s with
  | nil => exact nofun
  | cons u uses ih =>
    obtain ⟨htaken, hkept⟩ := tellsSizes_of_perform problem h u
    intro e he
    rw [run_mapM_cons] at he
    rcases List.mem_cons.mp he with he | he
    · exact htaken e he.symm
    · exact ih hkept e he

end Session

/-! ### The two update rules -/

section Rules

variable [Scalar α] {rule : UpdateRule α} {b : Mat α} {dx dg : Vec α} {e : Failure α}

/-- Where only the number of columns does not match, they name the same size twice. -/
theorem UpdateRule.fails_of_oblong (hrule : rule = bfgs ∨ rule = dfp) (h : Oblong b dx dg) :
    rule b dx dg = .error (.dimensionMismatch .inverseHessian dx.length dx.length) := by
  rcases hrule with rfl | rfl
  · exact bfgs_of_checkSizes (checkSizes_of_oblong h)
  · exact dfp_of_checkSizes (checkSizes_of_oblong h)

/-- **Otherwise the two update rules name two different sizes.** -/
theorem UpdateRule.tellsSizes_iff (hrule : rule = bfgs ∨ rule = dfp) (h : rule b dx dg = .error e) :
    e.TellsSizes ↔ ¬ Oblong b dx dg := by
  have hfailure : checkSizes b dx dg = .error e ∨ ∃ c, e = .illConditionedUpdate c := by
    rcases hrule with rfl | rfl
    · exact failure_of_bfgs h
    · exact failure_of_dfp h
  constructor
  · intro htells hoblong
    cases h.symm.trans (fails_of_oblong hrule hoblong)
    exact htells _ _ _ rfl rfl
  · intro hoblong
    rcases hfailure with hsizes | ⟨c, rfl⟩
    · exact (tellsSizes_of_checkSizes hsizes).resolve_right hoblong
    · exact nofun

/-- A rule that is asked about matching sizes only has no failure that is about sizes. -/
theorem Transcript.MindsSizes.tellsSizes {β : Type} {t : Transcript α} {r : Except (Failure α) β}
    (h : t.MindsSizes r) (hrule : rule = .bfgs ∨ rule = .dfp) (ht : t.UpdateIs rule)
    (hr : r = .error e) : e.TellsSizes := by
  have hshape : t.KeepsShape := by
    intro b dx dg db hx
    have hdb := (ht b dx dg _ hx).symm
    rcases hrule with rfl | rfl
    · exact UpdateRule.sameShape_of_bfgs hdb
    · exact UpdateRule.sameShape_of_dfp hdb
  rcases h.failure e hr with htells | ⟨b, dx, dg, hx⟩
  · exact htells
  · obtain ⟨-, -, hwidth⟩ := h.asked hshape b dx dg _ hx
    exact (UpdateRule.tellsSizes_iff hrule (ht b dx dg _ hx).symm).mpr fun hoblong =>
      hoblong.2.2 hwidth

/-! ### Calls -/

/-- What a call says of sizes, where the problem has the answers: two different ones, unless it repeats
a failure of the update rule, and always if the rule is one of the two. -/
def Run.TellsSizes {β σ : Type} (run : Run α β) (problem : Callbacks (StateM σ) α) (s : σ) : Prop :=
  let out := ((run.recordOn problem).run s).1
  ∀ e, out.1 = .error e → (e.TellsSizes ∨ out.2.RuleFails e) ∧
    ∀ rule : UpdateRule α, rule = .bfgs ∨ rule = .dfp → problem.UpdateIs rule → e.TellsSizes

theorem Run.MindsSizes.tellsSizes {β σ : Type} {run : Run α β} (h : MindsSizes run)
    (problem : Callbacks (StateM σ) α) (s : σ) : run.TellsSizes problem s := by
  intro e he
  let out := ((run.recordOn problem).run s).1
  have hminds : out.2.MindsSizes out.1 := h _ _ (ends_recordOn run s)
  exact ⟨hminds.failure e he, fun rule hrule hupdate => hminds.tellsSizes hrule hupdate.recordOn he⟩

/-- **A failure about sizes names two different ones**, with one exception, whatever the inputs and
whatever the callbacks answer, also if their answers change from call to call. The exception is an
update rule that is given an approximation with a row for each element of the step, but another number
of columns: it names the number of rows twice. Scaling does not have it, nor a Lagrangian in use, whose
failure is taken at some time. Nor has a run of any method, with one of the two update rules. With
another rule a run may repeat what that says. -/
theorem Failure.tellsSizes_of_call {σ : Type} :
    (∀ rule : UpdateRule α, rule = .bfgs ∨ rule = .dfp → ∀ b dx dg,
      (UpdateRule.Oblong b dx dg →
        rule b dx dg = .error (.dimensionMismatch .inverseHessian dx.length dx.length)) ∧
      ∀ e, rule b dx dg = .error e → (e.TellsSizes ↔ ¬ UpdateRule.Oblong b dx dg)) ∧
    (∀ (x reference : Vec α) e, scale x reference = .error e ∨ descale x reference = .error e →
      e.TellsSizes) ∧
    ∀ (problem : Callbacks (StateM σ) α) (s : σ),
      (∀ lam rho (uses : List (Use α)) e,
        .taken (some e) ∈ ((uses.mapM (Use.perform problem)).run (.build lam rho s)).1 →
        e.TellsSizes) ∧
      (∀ (method : Method) opt x₀, (method.solve opt x₀).TellsSizes problem s) ∧
      ∀ opt lagOpt x₀, (Run.augmentedLagrangian opt lagOpt x₀).TellsSizes problem s := by
  refine ⟨fun rule hrule b dx dg => ?_, fun x reference e he => ?_, fun problem s => ?_⟩
  · exact ⟨UpdateRule.fails_of_oblong hrule, fun e he => UpdateRule.tellsSizes_iff hrule he⟩
  · rcases he with he | he
    · exact tellsSizes_of_scale he
    · exact tellsSizes_of_descale he
  · refine ⟨fun lam rho uses e he => ?_, fun method opt x₀ => ?_, fun opt lagOpt x₀ => ?_⟩
    · have hbuilt : ∀ e, (Session.build lam rho s).kept = some e → e.TellsSizes := nofun
      exact Session.tellsSizes_of_run problem hbuilt uses e he
    · exact (Run.MindsSizes.solve method opt x₀).tellsSizes problem s
    · exact (Run.MindsSizes.augmentedLagrangian opt lagOpt x₀).tellsSizes problem s

/-- The exception, with an approximation of two rows and three columns. -/
theorem UpdateRule.not_tellsSizes_of_bfgs_twoByThree :
    let b : Mat Float := .ofFn 2 3 fun i j => if i = j then 1 else 0
    Oblong b [1, 2] [1, 2] ∧
      bfgs b [1, 2] [1, 2] = .error (.dimensionMismatch .inverseHessian 2 2) ∧
      ¬ ∀ e, bfgs b [1, 2] [1, 2] = .error e → e.TellsSizes := by
  intro b
  have hoblong : Oblong b [1, 2] [1, 2] := by decide
  have hfails : bfgs b [1, 2] [1, 2] = .error (.dimensionMismatch .inverseHessian 2 2) :=
    fails_of_oblong (.inl rfl) hoblong
  exact ⟨hoblong, hfails, fun h => h _ hfails _ _ _ rfl rfl⟩

end Rules

end Optimum
