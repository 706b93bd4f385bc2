import Optimum.Proofs.Descent.Methods
import Optimum.Scalar.Binary64

/-!
# The calls of a descent, and how it fails

A descent evaluates its objective in three roles: at an iterate, at a trial point of a line search,
and for an estimate of the gradient. `Call` tells them apart, and a transcript is read as the list
of its calls. The role of an evaluation is not a matter of choice: `Phase.Next` says which call can
come next, and what comes before an evaluation settles its role.

Some calls are offences: an iterate or a trial point where the objective is not finite, an estimate
of the wrong length or with a value that is not finite, an update rule that fails with anything but
a want of curvature. A value that is not finite does not offend inside an estimate, and a want of
curvature nowhere.

## What is proved

* `Accounts` is what a part of a run guarantees, with a rule for sequences (`Accounts.append`).
* `Run.accounts_of_iterates` is the step lemma, and `Run.Descends.accounts` the induction.
* `Method.firstOffence_of_recordOn`: a run of a method fails exactly if a call offends, with the
  failure of the first one, and ends with that call.
-/

namespace Optimum

open Scalar

/-! ### Calls -/

/-- A call of a descent, with what came of it. -/
inductive Call (α : Type) where
  /-- The objective at an iterate. -/
  | value (x : Vec α) (v : α)
  /-- The objective at a trial point of a line search. -/
  | trial (x : Vec α) (v : α)
  /-- The estimator at an iterate: its plan, the evaluations that the plan asked for, and the
  estimate. -/
  | estimate (x : Vec α) (h : α) (plan : Plan α (Vec α))
      (evaluations : Dialogue.Record fun _ : Vec α => α) (g : Vec α)
  /-- The update rule. -/
  | correction (b : Mat α) (dx dg : Vec α) (answer : Except (Failure α) (Mat α))
  /-- A message to the monitor. -/
  | report (p : Progress α)
  /-- A message to the log. -/
  | remark (n : Note α)

namespace Call

variable {α : Type}

/-- The exchanges of a call. -/
def exchanges : Call α → Transcript α
  | value x v => [⟨.objective x, v⟩]
  | trial x v => [⟨.objective x, v⟩]
  | estimate x h plan evaluations _ => ⟨.gradient x h, plan⟩ :: Run.ofPlan evaluations
  | correction b dx dg answer => [⟨.update b dx dg, answer⟩]
  | report p => [⟨.progress p, ()⟩]
  | remark n => [⟨.note n, ()⟩]

variable [Scalar α]

/-- What is wrong with a call. -/
def offence? : Call α → Option (Failure α)
  | value _ v => if isFinite v then none else some (.nonFiniteValue .objective)
  | trial _ v => if isFinite v then none else some (.nonFiniteValue .searchDirection)
  | estimate x _ _ _ g =>
    if g.length ≠ x.length then some (.dimensionMismatch .gradient x.length g.length)
    else if ¬ allFinite g then some (.nonFiniteValue .gradient)
    else none
  | correction _ _ _ (.error (.illConditionedUpdate _)) => none
  | correction _ _ _ (.error e) => some e
  | _ => none

/-- A call that makes a point an iterate of the run: an estimate with which nothing is wrong. -/
def settles : Call α → Bool
  | estimate x h plan evaluations g => (estimate x h plan evaluations g).offence?.isNone
  | _ => false

/-- The iterations that are complete: the iterates, less the starting point. -/
def completed (calls : List (Call α)) : Nat := calls.countP settles - 1

end Call

/-- What a descent is about to do. -/
inductive Phase (α : Type) where
  /-- It evaluates the objective at an iterate. -/
  | arriving
  /-- It estimates the gradient at an iterate. -/
  | measuring (x : Vec α)
  /-- It searches along a line, inside the interval, or has not begun to. -/
  | searching
  /-- It tries the full step. -/
  | reaching

namespace Phase

variable {α : Type}

/-- Which call can come next, where the iterates and the trial points are such as `P` says, and the
phase after it. -/
inductive Next (P : Vec α → Prop) : Phase α → Call α → Phase α → Prop where
  /-- The objective at an iterate. -/
  | value {x : Vec α} {v : α} : P x → Next P arriving (.value x v) (measuring x)
  /-- The gradient at the same iterate. -/
  | estimate {x : Vec α} {h : α} {plan : Plan α (Vec α)}
      {u : Dialogue.Record fun _ : Vec α => α} {g : Vec α} :
      plan.Ends u g → Next P (measuring x) (.estimate x h plan u g) searching
  /-- A trial point inside the interval. -/
  | trial {x : Vec α} {v : α} : P x → Next P searching (.trial x v) searching
  /-- The search inside the interval is over. -/
  | searchDone {x f : α} {m : Nat} : Next P searching (.remark (.searchDone x f m)) reaching
  /-- The trial point at the full step. -/
  | fullStep {x : Vec α} {v : α} : P x → Next P reaching (.trial x v) arriving
  /-- An end of the interval is taken. -/
  | notBracketed {a : α} : Next P arriving (.remark (.notBracketed a)) arriving
  /-- An update of the approximation, between iterations. -/
  | correction {b : Mat α} {dx dg : Vec α} {answer : Except (Failure α) (Mat α)} :
      Next P searching (.correction b dx dg answer) searching
  /-- A message to the monitor, between iterations. -/
  | report {p : Progress α} : Next P searching (.report p) searching
  /-- Another message to the log. -/
  | remark {m : Note α} : (∀ x f k, m ≠ .searchDone x f k) → (∀ a, m ≠ .notBracketed a) →
      Next P searching (.remark m) searching

/-- Calls one after another. -/
inductive Path (P : Vec α → Prop) : Phase α → List (Call α) → Phase α → Prop where
  /-- No call. -/
  | nil {p : Phase α} : Path P p [] p
  /-- A call and those that follow. -/
  | cons {p q r : Phase α} {c : Call α} {calls : List (Call α)} :
      Next P p c q → Path P q calls r → Path P p (c :: calls) r

variable {P : Vec α → Prop} {p q r : Phase α} {c : Call α} {calls calls' : List (Call α)}

theorem Next.path (h : Next P p c q) : Path P p [c] q := .cons h .nil

theorem Path.append (h : Path P p calls q) (h' : Path P q calls' r) :
    Path P p (calls ++ calls') r := by
  induction h with
  | nil => exact h'
  | cons hnext _ ih => exact .cons hnext (ih h')

/-- An estimate is made at an iterate, and by its plan. -/
theorem Path.estimate (h : Path P p calls q)
    (hp : ∀ x, p = .measuring x → P x) {x : Vec α} {step : α} {plan : Plan α (Vec α)}
    {u : Dialogue.Record fun _ : Vec α => α} {g : Vec α}
    (hmem : .estimate x step plan u g ∈ calls) : P x ∧ plan.Ends u g := by
  induction h with
  | nil => cases hmem
  | cons hnext _ ih =>
    rcases List.mem_cons.mp hmem with rfl | hmem
    · cases hnext with
      | estimate hu => exact ⟨hp _ rfl, hu⟩
    · refine ih (fun y hy => ?_) hmem
      subst hy
      cases hnext with
      | value hx => exact hx

/-! ### Reading a transcript -/

/-- The evaluations that a plan asked for are read off a transcript in one way only. -/
theorem ofPlan_append_inj {β : Type} {plan : Plan α β}
    {u u' : Dialogue.Record fun _ : Vec α => α} {b b' : β} {t t' : Transcript α}
    (h : plan.Ends u b) (h' : plan.Ends u' b') (heq : Run.ofPlan u ++ t = Run.ofPlan u' ++ t') :
    u = u' ∧ b = b' ∧ t = t' := by
  induction plan generalizing u u' with
  | done c =>
    obtain ⟨rfl, rfl⟩ := Dialogue.ends_done_iff.mp h
    obtain ⟨rfl, rfl⟩ := Dialogue.ends_done_iff.mp h'
    exact ⟨rfl, rfl, heq⟩
  | ask x next ih =>
    obtain ⟨v, w, rfl, hw⟩ := Dialogue.ends_ask_iff.mp h
    obtain ⟨v', w', rfl, hw'⟩ := Dialogue.ends_ask_iff.mp h'
    obtain ⟨hhead, htail⟩ := List.cons.inj heq
    cases hhead
    obtain ⟨rfl, hb, ht⟩ := ih v hw hw' htail
    exact ⟨rfl, hb, ht⟩

/-- What comes next is read off a transcript in one way only. -/
theorem Next.exchanges_append_inj {c' : Call α} {q' : Phase α} {t t' : Transcript α}
    (h : Next P p c q) (h' : Next P p c' q') (heq : c.exchanges ++ t = c'.exchanges ++ t') :
    c = c' ∧ q = q' ∧ t = t' := by
  cases h with
  | estimate hu =>
    cases h' with
    | estimate hu' =>
      obtain ⟨hhead, htail⟩ := List.cons.inj heq
      cases hhead
      obtain ⟨rfl, rfl, ht⟩ := ofPlan_append_inj hu hu' htail
      exact ⟨rfl, rfl, ht⟩
  | searchDone =>
    cases h' <;> obtain ⟨hhead, htail⟩ := List.cons.inj heq <;> cases hhead
    next => exact ⟨rfl, rfl, htail⟩
    next hm _ => exact absurd rfl (hm _ _ _)
  | remark hm _ =>
    cases h' <;> obtain ⟨hhead, htail⟩ := List.cons.inj heq <;> cases hhead
    next => exact absurd rfl (hm _ _ _)
    next => exact ⟨rfl, rfl, htail⟩
  | _ =>
    cases h' <;> obtain ⟨hhead, htail⟩ := List.cons.inj heq <;> cases hhead
    exact ⟨rfl, rfl, htail⟩

/-- Calls are read off a transcript in one way only, from the phase in which it begins. -/
theorem Path.eq_of_exchanges {q' : Phase α} (h : Path P p calls q) (h' : Path P p calls' q')
    (heq : calls.flatMap Call.exchanges = calls'.flatMap Call.exchanges) : calls = calls' := by
  have hne : ∀ c : Call α, c.exchanges ≠ [] := fun c => by
    cases c <;> exact List.cons_ne_nil _ _
  induction h generalizing calls' with
  | nil =>
    cases h' with
    | nil => rfl
    | cons _ _ => simp [hne] at heq
  | cons hnext _ ih =>
    cases h' with
    | nil => simp [hne] at heq
    | cons hnext' hrest =>
      obtain ⟨rfl, rfl, ht⟩ := hnext.exchanges_append_inj hnext' heq
      rw [ih hrest ht]

end Phase

/-- A transcript is that of the given calls, made in an order that a descent can make them in, with
iterates and trial points such as `P` says. -/
def Transcript.Reads {α : Type} (P : Vec α → Prop) (t : Transcript α) (calls : List (Call α)) :
    Prop :=
  (∃ q, Phase.Path P .arriving calls q) ∧ t = calls.flatMap Call.exchanges

/-- **A transcript is read as calls in one way only.** -/
theorem Transcript.Reads.unique {α : Type} {P : Vec α → Prop} {t : Transcript α}
    {calls calls' : List (Call α)} (h : t.Reads P calls) (h' : t.Reads P calls') :
    calls' = calls := by
  obtain ⟨⟨q, hpath⟩, ht⟩ := h
  obtain ⟨⟨q', hpath'⟩, ht'⟩ := h'
  exact hpath'.eq_of_exchanges hpath (ht'.symm.trans ht)

/-! ### Accounts -/

section Accounts

variable {α β γ : Type} [Scalar α]

/-- How calls come to an outcome: none offends and there is a result, or the last one is the only
one that offends and there is its failure. -/
inductive Concludes (P : Vec α → Prop) (p q : Phase α) :
    List (Call α) → Except (Failure α) β → Prop where
  /-- No call offends. -/
  | ok {calls : List (Call α)} {b : β} : Phase.Path P p calls q →
      (∀ c ∈ calls, c.offence? = none) → Concludes P p q calls (.ok b)
  /-- The last call offends. -/
  | error {before : List (Call α)} {c : Call α} {q' : Phase α} {e : Failure α} :
      Phase.Path P p (before ++ [c]) q' → (∀ b ∈ before, b.offence? = none) →
      c.offence? = some e → Concludes P p q (before ++ [c]) (.error e)

/-- A transcript from phase `p` is made of calls that come to the outcome `r`, in phase `q` if it is
a result; `m` of them make a point an iterate. -/
def Accounts (P : Vec α → Prop) (p q : Phase α) (m : Nat) (t : Transcript α)
    (r : Except (Failure α) β) : Prop :=
  ∃ calls : List (Call α), t = calls.flatMap Call.exchanges ∧ calls.countP Call.settles = m ∧
    Concludes P p q calls r

variable {P : Vec α → Prop} {m m' : Nat} {p q q' : Phase α} {t t' : Transcript α}

theorem Accounts.nil (b : β) : Accounts P p p 0 ([] : Transcript α) (.ok b) :=
  ⟨[], rfl, rfl, .ok .nil nofun⟩

/-- One call with which nothing is wrong. -/
theorem Accounts.call {c : Call α} (h : Phase.Next P p c q) (hc : c.offence? = none) (b : β) :
    Accounts P p q (Call.settles c).toNat c.exchanges (.ok b) := by
  refine ⟨[c], by simp, ?_, .ok h.path (by simpa using hc)⟩
  cases hs : Call.settles c <;> simp [hs]

/-- One call that offends. -/
theorem Accounts.offence {c : Call α} {e : Failure α} (h : Phase.Next P p c q')
    (hc : c.offence? = some e) (hs : Call.settles c = false) :
    Accounts P p q 0 c.exchanges (.error e : Except (Failure α) β) :=
  ⟨[] ++ [c], by simp, by simp [hs], .error h.path nofun hc⟩

theorem Accounts.error {e : Failure α}
    (h : Accounts P p q m t (.error e : Except (Failure α) β)) :
    Accounts P p q' m t (.error e : Except (Failure α) γ) := by
  obtain ⟨calls, ht, hm, hcalls⟩ := h
  cases hcalls with
  | error hpath hbefore hc => exact ⟨_, ht, hm, .error hpath hbefore hc⟩

theorem Accounts.ok {b : β} (h : Accounts P p q m t (.ok b : Except (Failure α) β)) (c : γ) :
    Accounts P p q m t (.ok c : Except (Failure α) γ) := by
  obtain ⟨calls, ht, hm, hcalls⟩ := h
  cases hcalls with
  | ok hpath hnone => exact ⟨_, ht, hm, .ok hpath hnone⟩

/-- **Accounts of two parts in sequence.** -/
theorem Accounts.append {b : β} {r : Except (Failure α) γ} {p' : Phase α}
    (h : Accounts P p p' m t (.ok b : Except (Failure α) β)) (h' : Accounts P p' q m' t' r) :
    Accounts P p q (m + m') (t ++ t') r := by
  obtain ⟨calls, rfl, rfl, hcalls⟩ := h
  obtain ⟨calls', rfl, rfl, hcalls'⟩ := h'
  obtain ⟨hpath, hnone⟩ : Phase.Path P p calls p' ∧ ∀ c ∈ calls, c.offence? = none := by
    cases hcalls with
    | ok hpath hnone => exact ⟨hpath, hnone⟩
  refine ⟨calls ++ calls', by simp, by simp, ?_⟩
  cases hcalls' with
  | ok hpath' hnone' =>
    refine .ok (hpath.append hpath') fun c hc => ?_
    rcases List.mem_append.mp hc with hc | hc
    · exact hnone c hc
    · exact hnone' c hc
  | error hpath' hbefore hc =>
    rw [← List.append_assoc]
    refine .error (by simpa using hpath.append hpath') (fun c hc => ?_) hc
    rcases List.mem_append.mp hc with hc | hc
    · exact hnone c hc
    · exact hbefore c hc

end Accounts

variable {α : Type} [Scalar α]

namespace Run

/-! ### Line searches -/

variable {P : Vec α → Prop} {x s : Vec α} {f₀ h : α} {opt : Options α} {t : Transcript α}

/-- Trials at finite values. -/
theorem accounts_onLine {u : Dialogue.Record (fun _ : α => α)} (hline : ∀ a, P (x.along s a))
    (hu : ∀ e ∈ u, isFinite e.answer = true) :
    Accounts P .searching .searching 0 (onLine x s u) (.ok ()) := by
  induction u with
  | nil => exact .nil ()
  | cons e u ih =>
    obtain ⟨he, hu⟩ := List.forall_mem_cons.mp hu
    have hcall : Accounts P .searching .searching 0 [⟨.objective (x.along s e.question), e.answer⟩]
        (.ok ()) :=
      .call (c := .trial (x.along s e.question) e.answer) (.trial (hline _)) (if_pos he) ()
    exact hcall.append (ih hu)

/-- What a search inside an interval notes down when it ends. -/
theorem accounts_notes (found : Found α) :
    Accounts P .searching .reaching 0 (Note.written found.notes) (.ok ()) := by
  have hdone : Accounts P .searching .reaching 0
      [⟨.note (.searchDone found.best.x found.best.f found.evaluations), ()⟩] (.ok ()) :=
    .call .searchDone rfl ()
  unfold Found.notes
  split
  · have hstopped : Accounts P .searching .searching 0
        [⟨.note (.searchStopped found.evaluations), ()⟩] (.ok ()) :=
      .call (c := (.remark (.searchStopped found.evaluations) : Call α)) (.remark nofun nofun) rfl
        ()
    exact hstopped.append hdone
  · exact hdone

/-- The trial point at the full step. -/
theorem accounts_fullStep {v : α} (hline : ∀ a, P (x.along s a)) (hv : isFinite v = true) :
    Accounts P .reaching .arriving 0 [⟨.objective (x.along s 1), v⟩] (.ok ()) :=
  .call (c := .trial (x.along s 1) v) (.fullStep (hline 1)) (if_pos hv) ()

theorem accounts_stepNotes (step : Step α) :
    Accounts P .arriving .arriving 0 (Note.written step.notes) (.ok ()) := by
  unfold Step.notes
  split
  · exact .nil ()
  · exact .call (c := .remark (.notBracketed step.alpha)) .notBracketed rfl ()

/-- A line search makes trials, and fails at the first value that is not finite. -/
theorem accounts_of_ends_lineSearch {r : Except (Failure α) (Step α)}
    (hline : ∀ a, P (x.along s a)) (hend : Ends (lineSearch opt x s f₀) t r) :
    Accounts P .searching .arriving 0 t r := by
  cases r with
  | ok step =>
    obtain ⟨u, found, v, -, hu, hv, -, rfl⟩ := ends_lineSearch_ok_iff.mp hend
    have hinside := (accounts_onLine hline hu).append (accounts_notes (P := P) found)
    exact ((hinside.append (accounts_fullStep hline hv)).append (accounts_stepNotes step)).ok step
  | error e =>
    rcases ends_lineSearch_error_iff.mp hend with hsearch | ⟨u, found, v, -, hu, hv, rfl, rfl⟩
    · obtain ⟨u, a, next, v, -, hu, hv, rfl, rfl⟩ := ends_search_error_iff.mp hsearch
      have hlast : Accounts P .searching .arriving 0 [⟨.objective (x.along s a), v⟩]
          (.error (.nonFiniteValue .searchDirection) : Except (Failure α) (Step α)) :=
        .offence (c := .trial (x.along s a) v) (.trial (hline a)) (by simp [Call.offence?, hv]) rfl
      exact (accounts_onLine hline hu).append hlast
    · have hlast : Accounts P .reaching .arriving 0 [⟨.objective (x.along s 1), v⟩]
          (.error (.nonFiniteValue .searchDirection) : Except (Failure α) (Step α)) :=
        .offence (c := .trial (x.along s 1) v) (.fullStep (hline 1)) (by simp [Call.offence?, hv])
          rfl
      exact ((accounts_onLine hline hu).append (accounts_notes (P := P) found)).append hlast

/-! ### Iterates -/

/-- An estimate, accepted or not. -/
theorem accounts_of_ends_finiteGradient {r : Except (Failure α) (Vec α)}
    (hend : Ends (finiteGradient x h) t r) :
    Accounts P (.measuring x) .searching r.isOk.toNat t r := by
  obtain ⟨plan, u, g, hu, rfl, rfl⟩ := ends_finiteGradient_iff.mp hend
  have hnext : Phase.Next P (.measuring x) (.estimate x h plan u g) .searching := .estimate hu
  have hoffence : (Call.estimate x h plan u g).offence? =
      match checkGradient x g with | .ok _ => none | .error e => some e := by
    rw [Call.offence?, checkGradient]
    split_ifs <;> rfl
  cases hcheck : checkGradient x g with
  | ok g' =>
    rw [hcheck] at hoffence
    have hsettles : Call.settles (.estimate x h plan u g) = true := by
      rw [Call.settles, hoffence]
      rfl
    have := Accounts.call hnext hoffence g'
    rw [hsettles] at this
    exact this
  | error e =>
    rw [hcheck] at hoffence
    have hsettles : Call.settles (.estimate x h plan u g) = false := by
      rw [Call.settles, hoffence]
      rfl
    exact .offence hnext hoffence hsettles

/-- An iterate, and whether the run arrives there. -/
theorem accounts_of_ends_iterate {r : Except (Failure α) (Iterate α)} (hx : P x)
    (hend : Ends (iterate x h) t r) : Accounts P .arriving .searching r.isOk.toNat t r := by
  have hvalue : ∀ v, isFinite v = true →
      Accounts P .arriving (.measuring x) 0 [⟨.objective x, v⟩] (.ok ()) := fun v hv =>
    .call (c := .value x v) (.value hx) (if_pos hv) ()
  cases r with
  | ok it =>
    obtain ⟨v, t', g, hv, hg, rfl, rfl⟩ := ends_iterate_ok_iff.mp hend
    exact ((hvalue v hv).append (accounts_of_ends_finiteGradient hg)).ok _
  | error e =>
    rcases ends_iterate_error_iff.mp hend with ⟨v, hv, rfl, rfl⟩ | ⟨v, t', hv, hg, rfl⟩
    · exact .offence (c := .value x v) (.value hx) (by simp [Call.offence?, hv]) rfl
    · exact ((hvalue v hv).append (accounts_of_ends_finiteGradient hg)).error

end Run

/-! ### Iterations -/

variable {P : Vec α → Prop} {n : Nat} {method : Method} {opt : Options α}
  {σ : Stage α (method.Memory α)} {t : Transcript α}

namespace Run

/-- A message to the log about the course of a run. -/
theorem accounts_remark {m : Note α} (h : ∀ x f k, m ≠ .searchDone x f k)
    (h' : ∀ a, m ≠ .notBracketed a) :
    Accounts P .searching .searching 0 (Note.written [m]) (.ok ()) :=
  .call (c := .remark m) (.remark h h') rfl ()

/-- What is said after an iteration. -/
theorem accounts_announced (p : Progress α) :
    Accounts P .searching .searching 0 (announced p) (.ok ()) :=
  (accounts_remark (m := .iteration p) nofun nofun).append (.call (c := .report p) .report rfl ())

/-- **An iteration comes to its outcome by its calls**, and makes a point an iterate if it is
complete. -/
theorem accounts_of_iterates {r : Except (Failure α) (Iteration α (method.Memory α))}
    (hline : ∀ a, P (σ.it.x.along (unitDirection (method.strategy n) σ.k σ.it σ.memory) a))
    (h : Iterates (method.strategy n) opt σ t r) :
    Accounts P .searching .searching t.progress.length t r := by
  cases r with
  | ok i =>
    rw [(views_of_ends_iteration h).2]
    obtain ⟨t₁, t₂, step, next, h₁, h₂, rfl, rfl⟩ := ends_iteration_ok_iff.mp h
    have hstep := accounts_of_ends_lineSearch hline h₁
    have hnext := accounts_of_ends_iterate (hline _) h₂
    exact ((hstep.append hnext).append (accounts_announced _)).ok _
  | error e =>
    rw [progress_of_ends_iteration_error h]
    rcases ends_iteration_error_iff.mp h with h₁ | ⟨t₁, t₂, step, h₁, h₂, rfl⟩
    · exact (accounts_of_ends_lineSearch hline h₁).error
    · have hnext := accounts_of_ends_iterate (hline _) h₂
      exact ((accounts_of_ends_lineSearch hline h₁).append hnext).error

/-- What a method learns: a want of curvature does not offend, any other failure of the update rule
does. -/
theorem accounts_of_ends_absorb {prev next : Iterate α} {memory : method.Memory α}
    {r : Except (Failure α) (method.Memory α)}
    (h : Ends ((method.strategy n).absorb prev next memory) t r) :
    Accounts P .searching .searching 0 t r := by
  cases method with
  | steepestDescent =>
    obtain ⟨rfl, rfl⟩ := ends_pure_iff.mp h
    exact .nil _
  | conjugateGradient =>
    obtain ⟨rfl, rfl⟩ := ends_pure_iff.mp h
    exact .nil _
  | quasiNewton =>
    obtain ⟨answer, rfl, rfl⟩ := Strategy.ends_absorb_quasiNewton_iff.mp h
    have hnext : Phase.Next P .searching
        (.correction memory (next.x.sub prev.x) (next.g.sub prev.g) answer) .searching :=
      .correction
    rcases answer with (_ | _ | _ | c | _) | db
    case ok => exact .call hnext rfl _
    case error.illConditionedUpdate =>
      have hskipped : Accounts P .searching .searching 0 (Note.written [.updateSkipped c])
          (.ok ()) := accounts_remark nofun nofun
      exact ((Accounts.call hnext rfl ()).append hskipped).ok _
    all_goals exact .offence hnext rfl rfl

/-- **A descent comes to its outcome by its calls**, and tells the monitor of every iteration that
is complete. -/
theorem Descends.accounts {left : Nat} {stages : List (Stage α (method.Memory α))}
    {r : Except (Failure α) (Solution α)}
    (h : Descends (method.strategy n) opt left σ t stages r)
    (hline : ∀ τ ∈ stages, ∀ a,
      P (τ.it.x.along (unitDirection (method.strategy n) τ.k τ.it τ.memory) a)) :
    Accounts P .searching .searching t.progress.length t r := by
  induction h with
  | fails h₁ => exact (accounts_of_iterates (hline _ List.mem_cons_self) h₁).error
  | stops h₁ _ =>
    have hiteration := accounts_of_iterates (hline _ List.mem_cons_self) h₁
    rw [Transcript.progress_append, Transcript.progress_written, List.append_nil]
    exact (hiteration.append (accounts_remark (m := .exit _ _) nofun nofun)).ok _
  | refuses h₁ _ h₂ =>
    have hiteration := accounts_of_iterates (hline _ List.mem_cons_self) h₁
    rw [Transcript.progress_append, (Method.aside_absorb h₂).progress, List.append_nil]
    exact (hiteration.append (accounts_of_ends_absorb h₂)).error
  | goesOn h₁ _ h₂ _ ih =>
    obtain ⟨hline, hrest⟩ := List.forall_mem_cons.mp hline
    simp only [Transcript.progress_append, (Method.aside_absorb h₂).progress, List.append_nil,
      List.length_append]
    exact ((accounts_of_iterates hline h₁).append (accounts_of_ends_absorb h₂)).append (ih hrest)

/-- The monitor is told of one iteration after another. -/
theorem Descends.numbers {S : Type} {strategy : Strategy α S} {left : Nat} {σ : Stage α S}
    {stages : List (Stage α S)} {r : Except (Failure α) (Solution α)}
    (haside : ∀ prev next memory u r, Ends (strategy.absorb prev next memory) u r → u.progress = [])
    (h : Descends strategy opt left σ t stages r) :
    t.progress.map (·.iteration) = List.range' (σ.k + 1) t.progress.length := by
  induction h with
  | fails h₁ =>
    rw [progress_of_ends_iteration_error h₁]
    rfl
  | stops h₁ _ =>
    rw [Transcript.progress_append, Transcript.progress_written, (views_of_ends_iteration h₁).2]
    exact congrArg (fun k => [k]) (iteration_of_iterates h₁)
  | refuses h₁ _ h₂ =>
    rw [Transcript.progress_append, haside _ _ _ _ _ h₂, (views_of_ends_iteration h₁).2]
    exact congrArg (fun k => [k]) (iteration_of_iterates h₁)
  | goesOn h₁ _ h₂ _ ih =>
    simp only [Transcript.progress_append, haside _ _ _ _ _ h₂, (views_of_ends_iteration h₁).2,
      List.append_nil, List.singleton_append, List.map_cons, List.length_cons, List.range'_succ]
    rw [ih, iteration_of_iterates h₁]

end Run

/-! ### Whole runs -/

/-- Calls that come to an outcome come to the failure of the first one that offends, and to a result
if none does. -/
theorem Concludes.failure?_eq {β : Type} {p q : Phase α} {calls : List (Call α)}
    {r : Except (Failure α) β} (h : Concludes P p q calls r) :
    Run.failure? r = calls.findSome? Call.offence? := by
  cases h with
  | ok _ hnone => exact (List.findSome?_eq_none_iff.mpr hnone).symm
  | error _ hbefore hc =>
    rw [List.findSome?_append, List.findSome?_eq_none_iff.mpr hbefore, Option.none_or,
      List.findSome?_singleton, hc]
    rfl

theorem Concludes.exists_path {β : Type} {p q : Phase α} {calls : List (Call α)}
    {r : Except (Failure α) β} (h : Concludes P p q calls r) : ∃ q', Phase.Path P p calls q' := by
  cases h with
  | ok hpath _ => exact ⟨q, hpath⟩
  | error hpath _ _ => exact ⟨_, hpath⟩

/-- Nothing is called after a call that offends. -/
theorem Concludes.eq_nil {β : Type} {p q : Phase α} {calls before after : List (Call α)}
    {c : Call α} {r : Except (Failure α) β} (h : Concludes P p q calls r)
    (heq : calls = before ++ c :: after) (hc : c.offence? ≠ none) : after = [] := by
  cases h with
  | ok _ hnone => exact absurd (hnone c (by simp [heq])) hc
  | @error before' c' _ _ _ hbefore _ =>
    rcases List.eq_nil_or_concat after with rfl | ⟨after', c'', rfl⟩
    · rfl
    · have hmem : c ∈ before' := by
        rw [List.concat_eq_append, ← List.cons_append, ← List.append_assoc] at heq
        rw [(List.append_inj' heq rfl).1]
        exact List.mem_append_right _ List.mem_cons_self
      exact absurd (hbefore c hmem) hc

namespace Method

/-- **A run of a method comes to its outcome by its calls**: those that make a point an iterate are
one more than the iterations that the monitor was told of, if there are any. -/
theorem accounts_of_minimizes {memory : method.Memory α} {x₀ : Vec α}
    {stages : List (Stage α (method.Memory α))} {r : Except (Failure α) (Solution α)}
    (hopt : opt.fault? = none) (hx₀ : x₀ ≠ []) (hfits : P x₀)
    (h : Run.Minimizes (method.strategy n) memory opt x₀ t stages r)
    (hline : ∀ τ ∈ stages, ∀ a,
      P (τ.it.x.along (Run.unitDirection (method.strategy n) τ.k τ.it τ.memory) a)) :
    ∃ m, Accounts P .arriving .searching m t r ∧
      t.progress.map (·.iteration) = List.range' 1 (m - 1) := by
  cases h with
  | unusable h => cases hopt.symm.trans h
  | empty _ h => exact absurd h hx₀
  | unstarted _ _ h₁ =>
    refine ⟨_, (Run.accounts_of_ends_iterate hfits h₁).error, ?_⟩
    rw [Run.progress_of_ends_iterate h₁]
    rfl
  | descends _ _ h₁ h₂ =>
    refine ⟨_, (Run.accounts_of_ends_iterate hfits h₁).append (h₂.accounts hline), ?_⟩
    have hnumbers := h₂.numbers fun _ _ _ _ _ h => (aside_absorb h).progress
    rw [Transcript.progress_append, Run.progress_of_ends_iterate h₁, List.nil_append]
    simpa [Except.isOk, Except.toBool] using hnumbers

/-- **How a run of a method fails**, whatever the callbacks answer and however their answers change,
as long as an update rule that succeeds gives a change of the shape of the approximation. Faulty
options and an empty design vector are refused before anything is called. Otherwise the transcript
is read as the calls of a descent; the run fails exactly if one of them offends, with the failure of
the first one; nothing is called after that; and the monitor was told, in order, of exactly the
iterations that were complete. -/
theorem firstOffence_of_recordOn {σ : Type} {problem : Callbacks (StateM σ) α}
    (hshape : problem.KeepsShape) (method : Method) (opt : Options α) (x₀ : Vec α) (s : σ) :
    let out := (((method.solve opt x₀).recordOn problem).run s).1
    (∀ e, opt.validate = .error e → out = (.error e, [])) ∧
    (opt.validate = .ok () → x₀ = [] → out = (.error .emptyDesignVector, [])) ∧
    (opt.validate = .ok () → x₀ ≠ [] → ∃ calls, out.2.Reads (·.length = x₀.length) calls ∧
      (∀ calls', out.2.Reads (·.length = x₀.length) calls' → calls' = calls) ∧
      Run.failure? out.1 = calls.findSome? Call.offence? ∧
      (∀ before c after, calls = before ++ c :: after → c.offence? ≠ none → after = []) ∧
      out.2.progress.map (·.iteration) = List.range' 1 (Call.completed calls)) := by
  intro out
  have hends : Run.Ends (method.solve opt x₀) out.2 out.1 := Run.ends_recordOn _ s
  have hshape' : out.2.KeepsShape := hshape.recordOn
  rw [solve_eq] at hends
  obtain ⟨stages, h⟩ := Run.ends_minimize_iff.mp hends
  obtain ⟨r, t⟩ := out
  refine ⟨fun e he => ?_, fun hopt hx₀ => ?_, fun hopt hx₀ => ?_⟩
  · have hfault : ∀ f, opt.fault? = some f → e = .invalidOptions f := fun f hf => by
      rw [Options.validate, hf] at he
      exact (Except.error.inj he).symm
    have hnone : opt.fault? ≠ none := fun hf => by
      rw [Options.validate, hf] at he
      cases he
    cases h with
    | unusable hf => rw [hfault _ hf]
    | empty hf _ => exact absurd hf hnone
    | unstarted hf _ _ => exact absurd hf hnone
    | descends hf _ _ _ => exact absurd hf hnone
  · have hnone := Options.validate_eq_ok_iff.mp hopt
    cases h with
    | unusable hf => cases hnone.symm.trans hf
    | empty _ _ => rfl
    | unstarted _ hx _ => exact absurd hx₀ hx
    | descends _ hx _ _ => exact absurd hx₀ hx
  · obtain ⟨m, ⟨calls, ht, hm, hcalls⟩, hnumbers⟩ :=
      accounts_of_minimizes (P := (·.length = x₀.length)) (Options.validate_eq_ok_iff.mp hopt) hx₀
        rfl h fun τ hτ => (h.shaped hshape' τ hτ).full.length_along
    have hreads : t.Reads (·.length = x₀.length) calls := ⟨hcalls.exists_path, ht⟩
    refine ⟨calls, hreads, fun _ => hreads.unique, hcalls.failure?_eq,
      fun _ _ _ => hcalls.eq_nil, ?_⟩
    rw [Call.completed, hm]
    exact hnumbers

/-- A sum of squares, with an update rule that finds no curvature when it is called for the first
time, and fails when it is called again. -/
def failingRule : Callbacks (StateM Nat) Float where
  objective x := pure (Vec.dot x x)
  constraints _ := pure ⟨[], []⟩
  gradient x h := pure (.forward x h)
  update _ _ _ calls :=
    (.error (if calls = 0 then .illConditionedUpdate 0 else .emptyDesignVector), calls + 1)
  progress _ := pure ()
  note _ := pure ()

/-- A run that goes on after the first of the two failures, and ends with the second. -/
theorem firstOffence_of_recordOn_failingRule :
    let opt : Options Float := { Options.default with lineMaxFev := 2 }
    let out := (((quasiNewton.solve opt [3]).recordOn failingRule).run 0).1
    failingRule.KeepsShape ∧ opt.validate = .ok () ∧
      ∃ calls, out.2.Reads (·.length = 1) calls ∧
        calls.findSome? Call.offence? = some .emptyDesignVector ∧
        List.range' 1 (Call.completed calls) = [1, 2] := by
  intro opt out
  have hshape : failingRule.KeepsShape := fun _ _ _ _ _ h => nomatch h
  have hopt : opt.validate = .ok () := Options.validate_eq_ok_iff.mpr (by decide)
  have hrun : Run.failure? out.1 = some .emptyDesignVector ∧
      out.2.progress.map (·.iteration) = [1, 2] := by decide +kernel
  obtain ⟨-, -, h⟩ := firstOffence_of_recordOn hshape quasiNewton opt [3] 0
  obtain ⟨calls, hreads, -, hfirst, -, hnumbers⟩ := h hopt (List.cons_ne_nil _ _)
  exact ⟨hshape, hopt, calls, hreads, hfirst.symm.trans hrun.1, hnumbers.symm.trans hrun.2⟩

end Method

end Optimum
