import Optimum.Proofs.Paths

/-!
# Dialogues that mirror each other

Two dialogues can differ in the words and agree in everything else: each question of the one
corresponds to a question of the other, and if the answers correspond too, so does what follows. A
`Mirror` says what corresponds to what, which questions come up, and which answers are considered.
`Mirror.Reflects` relates two dialogues like this, as trees of questions; results correspond by a
function.

## What is proved

* `Mirror.Reflects.bind`: the rule for sequences.
* `Mirror.Reflects.record` and `Mirror.Reflects.record_map`: the record of the second dialogue is
  that of the first in the mirror, if the answers are. In the first version the answers are
  determined by the questions, while each dialogue keeps a state of its own; in the second the
  answers may depend on a state, or fail, and are the same up to the mirror.
-/

namespace Optimum

variable {Q : Type} {A : Q → Type} {β γ δ ε : Type}

/-- What corresponds to the questions and answers of a dialogue. -/
structure Mirror (A : Q → Type) where
  /-- The question that corresponds to a question. -/
  question : Q → Q
  /-- The answer that corresponds to an answer. -/
  answer : (q : Q) → A q → A (question q)
  /-- The questions that come up. -/
  Asks : Q → Prop
  /-- The answers that are considered. -/
  Admits : (q : Q) → A q → Prop

namespace Mirror

open Dialogue

variable {M : Mirror A}

/-- The exchange that corresponds to an exchange. -/
def exchange (M : Mirror A) (x : Exchange A) : Exchange A :=
  ⟨M.question x.question, M.answer x.question x.answer⟩

/-- The second dialogue is the first one in the mirror, and so is its result, by `g`. -/
inductive Reflects (M : Mirror A) (g : β → γ) : Dialogue A β → Dialogue A γ → Prop where
  /-- Both are over. -/
  | done (b : β) : Reflects M g (.done b) (.done (g b))
  /-- Both ask a question. -/
  | ask {q : Q} {next : A q → Dialogue A β} {next' : A (M.question q) → Dialogue A γ} :
      M.Asks q → (∀ a, M.Admits q a → Reflects M g (next a) (next' (M.answer q a))) →
      Reflects M g (.ask q next) (.ask (M.question q) next')

namespace Reflects

variable {g : β → γ} {h : δ → ε} {d : Dialogue A β} {d' : Dialogue A γ}

/-- **Two dialogues in sequence.** -/
theorem bind {f : β → Dialogue A δ} {f' : γ → Dialogue A ε} (hd : M.Reflects g d d')
    (hf : ∀ b, M.Reflects h (f b) (f' (g b))) : M.Reflects h (d >>= f) (d' >>= f') := by
  induction hd with
  | done b => exact hf b
  | ask hq _ ih => exact .ask hq ih

/-- The record of a dialogue that reflects another, where the questions determine the answers. -/
theorem record {σ σ' : Type} {answer : (q : Q) → StateM σ (A q)}
    {answer' : (q : Q) → StateM σ' (A q)}
    (hanswer : ∀ q, M.Asks q → ∀ s s', M.Admits q ((answer q).run s).1 ∧
      ((answer' (M.question q)).run s').1 = M.answer q ((answer q).run s).1)
    (hd : M.Reflects g d d') (s : σ) (s' : σ') :
    ((d'.record answer').run s').1 =
      (g ((d.record answer).run s).1.1, ((d.record answer).run s).1.2.map M.exchange) := by
  induction hd generalizing s s' with
  | done b => rfl
  | @ask q next next' hq _ ih =>
    obtain ⟨hadmits, heq⟩ := hanswer q hq s s'
    have hnext := ih _ hadmits ((answer q).run s).2 ((answer' (M.question q)).run s').2
    simp only [record_ask_run, heq, hnext, List.map_cons, Mirror.exchange]

/-- The record of a dialogue that reflects another, where the answers are the same up to the
mirror. -/
theorem record_map {m : Type → Type} [Monad m] [LawfulMonad m] {answer answer' : (q : Q) → m (A q)}
    (hanswer : ∀ q, M.Asks q → answer' (M.question q) = M.answer q <$> answer q)
    (hadmits : ∀ q a, M.Admits q a) (hd : M.Reflects g d d') :
    d'.record answer' = (fun p => (g p.1, p.2.map M.exchange)) <$> d.record answer := by
  induction hd with
  | done b => simp
  | @ask q next next' hq _ ih =>
    rw [record_ask, record_ask, hanswer q hq]
    simp only [map_bind, bind_map_left, Functor.map_map]
    refine bind_congr fun a => ?_
    rw [ih a (hadmits q a), Functor.map_map]
    rfl

end Reflects

end Mirror

end Optimum
