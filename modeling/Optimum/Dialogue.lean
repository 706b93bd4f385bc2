/-!
# Dialogues

A dialogue is a finite tree of questions: it is over with a result, or it asks a question and
goes on as the answer says.  An algorithm that consults functions it does not know (an
objective, an estimator of gradients, a rule, a monitor) is such a tree, whose questions are
the calls it makes.  What answers is chosen afterwards: `Dialogue.run` puts every question to
a function in any monad, so the answers may depend on a state, may fail, or may be questions
of another dialogue.

## What is proved

Dialogues form a lawful monad, and `run` commutes with sequencing (`run_bind`).  `record`
keeps every question with its answer, in order; leaving the record out gives `run` back
(`fst_record`).
-/

namespace Optimum

/-- A finite tree of questions `Q`, answered by `A`, that ends with a result. -/
inductive Dialogue {Q : Type} (A : Q → Type) (β : Type) : Type where
  /-- The dialogue is over. -/
  | done (result : β)
  /-- A question, and how the dialogue goes on after each answer. -/
  | ask (question : Q) (next : A question → Dialogue A β)

namespace Dialogue

variable {Q : Type} {A : Q → Type} {β γ δ : Type}

/-! ### Sequencing -/

/-- The dialogue followed by the one that its result selects. -/
def bind : Dialogue A β → (β → Dialogue A γ) → Dialogue A γ
  | done b, f => f b
  | ask q next, f => ask q fun a => (next a).bind f

instance : Monad (Dialogue A) where
  pure := done
  bind := bind

/-- The dialogue that asks one question and ends with the answer. -/
def query (q : Q) : Dialogue A (A q) := ask q done

@[simp] theorem pure_def (b : β) : (pure b : Dialogue A β) = done b := rfl

@[simp] theorem done_bind (b : β) (f : β → Dialogue A γ) : (done b >>= f) = f b := rfl

@[simp] theorem ask_bind (q : Q) (next : A q → Dialogue A β) (f : β → Dialogue A γ) :
    (ask q next >>= f) = ask q fun a => next a >>= f := rfl

@[simp] theorem query_bind (q : Q) (f : A q → Dialogue A γ) : (query q >>= f) = ask q f := rfl

private theorem bind_done (d : Dialogue A β) : (d >>= done) = d := by
  induction d with
  | done b => rfl
  | ask q next ih => simp [ih]

private theorem bind_bind (d : Dialogue A β) (f : β → Dialogue A γ) (g : γ → Dialogue A δ) :
    (d >>= f >>= g) = d >>= fun b => f b >>= g := by
  induction d with
  | done b => rfl
  | ask q next ih => simp [ih]

instance : LawfulMonad (Dialogue A) :=
  LawfulMonad.mk' (Dialogue A) (fun d => bind_done d) (fun _ _ => rfl) bind_bind

/-! ### Answering -/

section Run

variable {m : Type → Type} [Monad m]

/-- The result of the dialogue when `answer` answers its questions. -/
def run (answer : (q : Q) → m (A q)) : Dialogue A β → m β
  | done b => pure b
  | ask q next => do
    let a ← answer q
    (next a).run answer

@[simp] theorem run_done (answer : (q : Q) → m (A q)) (b : β) :
    (done b : Dialogue A β).run answer = pure b := rfl

@[simp] theorem run_ask (answer : (q : Q) → m (A q)) (q : Q) (next : A q → Dialogue A β) :
    (ask q next).run answer = answer q >>= fun a => (next a).run answer := rfl

theorem run_bind [LawfulMonad m] (answer : (q : Q) → m (A q)) (d : Dialogue A β)
    (f : β → Dialogue A γ) :
    (d >>= f).run answer = d.run answer >>= fun b => (f b).run answer := by
  induction d with
  | done b => simp
  | ask q next ih => simp [ih]

end Run

/-! ### Records -/

/-- A question together with the answer it got. -/
structure Exchange (A : Q → Type) where
  /-- The question. -/
  question : Q
  /-- Its answer. -/
  answer : A question

/-- The exchanges of a run in order. -/
abbrev Record (A : Q → Type) := List (Exchange A)

section Record

variable {m : Type → Type} [Monad m]

/-- Runs the dialogue and puts its exchanges in front of `earlier`, the latest first. -/
def recordOnto (answer : (q : Q) → m (A q)) : Dialogue A β → Record A → m (β × Record A)
  | done b, earlier => pure (b, earlier)
  | ask q next, earlier => do
    let a ← answer q
    (next a).recordOnto answer (⟨q, a⟩ :: earlier)

/-- The result of the dialogue and its exchanges in order. -/
def record (answer : (q : Q) → m (A q)) (d : Dialogue A β) : m (β × Record A) := do
  let (b, exchanges) ← d.recordOnto answer []
  pure (b, exchanges.reverse)

variable [LawfulMonad m]

private theorem recordOnto_eq (answer : (q : Q) → m (A q)) (d : Dialogue A β) (earlier : Record A) :
    d.recordOnto answer earlier =
      (fun p => (p.1, p.2 ++ earlier)) <$> d.recordOnto answer [] := by
  induction d generalizing earlier with
  | done b => simp [recordOnto]
  | ask q next ih =>
    simp only [recordOnto, map_bind]
    congr 1
    funext a
    rw [ih a (⟨q, a⟩ :: earlier), ih a [⟨q, a⟩]]
    simp

@[simp] theorem record_done (answer : (q : Q) → m (A q)) (b : β) :
    (done b : Dialogue A β).record answer = pure (b, []) := by simp [record, recordOnto]

theorem record_ask (answer : (q : Q) → m (A q)) (q : Q) (next : A q → Dialogue A β) :
    (ask q next).record answer = answer q >>= fun a =>
      (fun p => (p.1, ⟨q, a⟩ :: p.2)) <$> (next a).record answer := by
  simp only [record, recordOnto, bind_assoc, map_bind]
  congr 1
  funext a
  rw [recordOnto_eq]
  simp

theorem fst_record (answer : (q : Q) → m (A q)) (d : Dialogue A β) :
    Prod.fst <$> d.record answer = d.run answer := by
  induction d with
  | done b => simp
  | ask q next ih =>
    rw [record_ask, run_ask, map_bind]
    congr 1
    funext a
    rw [← ih a]
    simp

end Record

end Dialogue

end Optimum
