import Optimum.Proofs.Descent.Questions
import Optimum.Proofs.Loop

/-!
# Dialogues that leave questions out

Two dialogues can differ in this only, that the second leaves out questions of one kind: after every
answer to them that is considered, the first goes on as the second does. An `Omission` says which
questions are left out, and which answers to them are considered. `Omission.Reduces` relates two
dialogues like this, as trees of questions; results correspond by a relation.

## What is proved

* `Run.ReducesTo.bind` is the rule for sequences; so there is one for loops (`Run.reducing`).
* `Omission.Reduces.record`: the record of the second dialogue is that of the first without the
  questions left out, if the state that the other answers depend on is not changed by these.
-/

namespace Optimum

variable {Q : Type} {A : Q → Type} {β γ δ ε : Type}

/-- Questions to be left out of a dialogue. -/
structure Omission (A : Q → Type) where
  /-- The questions that are left out. -/
  omits : Q → Bool
  /-- The answers to them that are considered. -/
  Admits : (q : Q) → A q → Prop

namespace Omission

open Dialogue

variable {O : Omission A} {R : β → γ → Prop} {S : δ → ε → Prop}

/-- What is left of a record. -/
def remaining (O : Omission A) (t : Record A) : Record A := t.filter fun x => !O.omits x.question

/-- The second dialogue is the first one without the questions to be left out, and the results
correspond by `R`. -/
inductive Reduces (O : Omission A) (R : β → γ → Prop) : Dialogue A β → Dialogue A γ → Prop where
  /-- Both are over. -/
  | done {b : β} {c : γ} : R b c → Reduces O R (.done b) (.done c)
  /-- A question is left out. -/
  | leaves {q : Q} {next : A q → Dialogue A β} {d' : Dialogue A γ} : O.omits q = true →
      (∀ a, O.Admits q a → Reduces O R (next a) d') → Reduces O R (.ask q next) d'
  /-- Both ask a question. -/
  | asks {q : Q} {next : A q → Dialogue A β} {next' : A q → Dialogue A γ} : O.omits q = false →
      (∀ a, Reduces O R (next a) (next' a)) → Reduces O R (.ask q next) (.ask q next')

namespace Reduces

variable {d : Dialogue A β} {d' : Dialogue A γ}

theorem mono {R' : β → γ → Prop} (hd : O.Reduces R d d') (hR : ∀ b c, R b c → R' b c) :
    O.Reduces R' d d' := by
  induction hd with
  | done h => exact .done (hR _ _ h)
  | leaves hq _ ih => exact .leaves hq ih
  | asks hq _ ih => exact .asks hq ih

/-- **Two dialogues in sequence.** -/
theorem bind {f : β → Dialogue A δ} {f' : γ → Dialogue A ε} (hd : O.Reduces R d d')
    (hf : ∀ b c, R b c → O.Reduces S (f b) (f' c)) : O.Reduces S (d >>= f) (d' >>= f') := by
  induction hd with
  | done h => exact hf _ _ h
  | leaves hq _ ih => exact .leaves hq ih
  | asks hq _ ih => exact .asks hq ih

/-- A dialogue that asks nothing to be left out reduces to itself. Of its result is known that a
path leads there. -/
theorem self (hinhabited : ∀ q, Nonempty (A q)) {d : Dialogue A β}
    (hd : ∀ t b, d.Ends t b → ∀ x ∈ t, O.omits x.question = false) :
    O.Reduces (fun b c => c = b ∧ ∃ t, d.Ends t b) d d := by
  induction d with
  | done b => exact .done ⟨rfl, [], ends_done_iff.mpr ⟨rfl, rfl⟩⟩
  | ask q next ih =>
    obtain ⟨hq, hnext⟩ := forall_ends_ask (P := fun q => O.omits q = false) hinhabited hd
    refine .asks hq fun a => (ih a (hnext a)).mono fun b c h => ?_
    obtain ⟨rfl, t, h⟩ := h
    exact ⟨rfl, _, .ask h⟩

/-- Where nothing is left out, both dialogues are the same. -/
theorem eq_of_omits_nothing {R : β → β → Prop} {d d' : Dialogue A β} (hd : O.Reduces R d d')
    (hO : ∀ q, O.omits q = false) (hR : ∀ b c, R b c → b = c) : d = d' := by
  induction hd with
  | done h => rw [hR _ _ h]
  | leaves hq _ _ => cases (hO _).symm.trans hq
  | asks _ _ ih => exact congrArg _ (funext ih)

/-- **The record of a dialogue with questions left out** is what remains of the record of the whole.
The two states agree as far as the answers that remain depend on them, and the answers left out do
not change that. -/
theorem record {σ σ' : Type} {answer : (q : Q) → StateM σ (A q)}
    {answer' : (q : Q) → StateM σ' (A q)} {Agree : σ → σ' → Prop}
    (homits : ∀ q s s', O.omits q = true → Agree s s' →
      O.Admits q ((answer q).run s).1 ∧ Agree ((answer q).run s).2 s')
    (hasks : ∀ q s s', O.omits q = false → Agree s s' →
      ((answer q).run s).1 = ((answer' q).run s').1 ∧
        Agree ((answer q).run s).2 ((answer' q).run s').2)
    (hd : O.Reduces R d d') {s : σ} {s' : σ'} (hs : Agree s s') :
    R ((d.record answer).run s).1.1 ((d'.record answer').run s').1.1 ∧
      ((d'.record answer').run s').1.2 = O.remaining ((d.record answer).run s).1.2 := by
  induction hd generalizing s s' with
  | done h =>
    rw [record_done, record_done]
    exact ⟨h, rfl⟩
  | leaves hq _ ih =>
    obtain ⟨hadmits, hs'⟩ := homits _ s s' hq hs
    rw [record_ask_run]
    simpa [remaining, hq] using ih _ hadmits hs'
  | asks hq _ ih =>
    obtain ⟨ha, hs'⟩ := hasks _ s s' hq hs
    rw [record_ask_run, record_ask_run, ← ha]
    simpa [remaining, hq] using ih _ hs'

end Reduces

end Omission

/-! ### Runs -/

/-- Every question can be answered. -/
theorem Question.nonempty_answer {α : Type} [Scalar α] (q : Question α) :
    Nonempty (Answer α q) := by
  cases q with
  | objective x => exact ⟨(0 : α)⟩
  | constraints x => exact ⟨⟨[], []⟩⟩
  | gradient x h => exact ⟨.done []⟩
  | update b dx dg => exact ⟨.ok b⟩
  | progress p => exact ⟨()⟩
  | note n => exact ⟨()⟩

namespace Run

variable {α : Type} {O : Omission (Answer α)} {R : β → γ → Prop} {S : δ → ε → Prop}

/-- The second run is the first one without the questions to be left out. -/
def ReducesTo (O : Omission (Answer α)) (R : β → γ → Prop) (run : Run α β) (run' : Run α γ) :
    Prop :=
  O.Reduces (Corresponds R) run.run run'.run

namespace ReducesTo

variable {run : Run α β} {run' : Run α γ}

theorem pure {b : β} {c : γ} (h : R b c) :
    ReducesTo O R (Pure.pure b : Run α β) (Pure.pure c : Run α γ) := .done (.ok h)

theorem throw (e : Failure α) :
    ReducesTo O R (MonadExcept.throw e : Run α β) (MonadExcept.throw e : Run α γ) :=
  .done (.error e)

theorem mono {R' : β → γ → Prop} (hrun : ReducesTo O R run run') (hR : ∀ b c, R b c → R' b c) :
    ReducesTo O R' run run' :=
  Omission.Reduces.mono hrun fun _ _ h => h.mono hR

/-- **Two runs in sequence.** -/
theorem bind {f : β → Run α δ} {f' : γ → Run α ε} (hrun : ReducesTo O R run run')
    (hf : ∀ b c, R b c → ReducesTo O S (f b) (f' c)) : ReducesTo O S (run >>= f) (run' >>= f') := by
  refine Omission.Reduces.bind hrun fun r r' h => ?_
  cases h with
  | error e => exact .done (.error e)
  | ok h => exact hf _ _ h

/-- A question that both ask. -/
theorem query {q : Question α} (hq : O.omits q = false) :
    ReducesTo O Eq (Run.query q) (Run.query q) :=
  Omission.Reduces.asks hq fun _ => .done (.ok rfl)

theorem note {n : Note α} (hn : O.omits (.note n) = false) :
    ReducesTo O Eq (Run.note n) (Run.note n) := ReducesTo.query (q := .note n) hn

theorem progress {p : Progress α} (hp : O.omits (.progress p) = false) :
    ReducesTo O Eq (Run.progress p) (Run.progress p) := ReducesTo.query (q := .progress p) hp

/-- A question that is left out. -/
theorem leaves {q : Question α} {f : Answer α q → Run α δ} {run' : Run α ε} (hq : O.omits q = true)
    (hf : ∀ a, O.Admits q a → ReducesTo O S (f a) run') :
    ReducesTo O S (Run.query q >>= f) run' := Omission.Reduces.leaves hq hf

/-- A run that asks nothing to be left out. -/
theorem self [Scalar α] (h : AsksOnly (fun q => O.omits q = false) run) :
    ReducesTo O (fun b c => c = b ∧ ∃ t, Ends run t (.ok b)) run run := by
  refine (Omission.Reduces.self Question.nonempty_answer h).mono fun r r' h => ?_
  obtain ⟨rfl, t, h⟩ := h
  cases r' with
  | error e => exact .error e
  | ok b => exact .ok ⟨rfl, t, h⟩

/-- Where nothing is left out, both runs are the same. -/
theorem eq_of_omits_nothing {run run' : Run α β} (h : ReducesTo O Eq run run')
    (hO : ∀ q, O.omits q = false) : run = run' :=
  Omission.Reduces.eq_of_omits_nothing h hO fun _ _ => Corresponds.eq

/-- A check, which asks nothing. -/
theorem check {x : Except (Failure α) β} {f : β → Run α δ} {f' : β → Run α ε}
    (hf : ∀ b, x = .ok b → ReducesTo O S (f b) (f' b)) :
    ReducesTo O S (liftM x >>= f) (liftM x >>= f') := by
  cases x with
  | error e => exact .done (.error e)
  | ok b => exact hf b rfl

end ReducesTo

/-- Runs that leave questions out can be put in sequence, so loops of them are related as their
iterations are. -/
def reducing (O : Omission (Answer α)) : Run.Relation α where
  Holds R run run' := ReducesTo O R run run'
  bind hrun hf := hrun.bind hf

end Run

end Optimum
