import Optimum.Dialogue

/-!
# Paths through a dialogue

A path is one way in which a dialogue can be answered: the exchanges in order, and what is left
of the dialogue after them. `Reaches` says that the questions are those that the dialogue asks,
each after the answers before it; the answers are arbitrary. So what holds of every path holds
whatever the callbacks answer, also if they keep a state.

## What is proved

* `ends_bind_iff`: a path of two dialogues in sequence is a path of the first, to its result,
  followed by a path of the second.
* `AsksAtMost.of_reaches`: a bound on the questions of a dialogue, less those asked on a path, is one
  for what is left.
* `Ends.of_attempt`: if callbacks may fail, a path leads to the result or to the first failure.
* `Ends.eq_answered`: if a function gives all answers, a path leads to the result that it gives.
* `ends_record`: the record of a run whose callbacks keep a state is a path, and each of its
  answers is one that the callbacks give in some state (`answer_of_mem_record`), each in the state
  that the one before has left (`replays_record`).
-/

namespace Optimum

/-- If only the last element of a list fails a test, an element that fails it is the last one. -/
theorem eq_last_of_append {α : Type} {P : α → Prop} {earlier before after : List α} {v w : α}
    (h : earlier ++ [w] = before ++ v :: after) (hall : ∀ a ∈ earlier, P a) (hv : ¬ P v) :
    after = [] ∧ v = w := by
  rcases List.append_eq_append_iff.mp h with ⟨rest, -, hlast⟩ | ⟨rest, rfl, hrest⟩
  · cases rest with
    | nil =>
      obtain ⟨rfl, hnil⟩ := List.cons.inj hlast
      exact ⟨hnil.symm, rfl⟩
    | cons x rest => simp at hlast
  · cases rest with
    | nil =>
      obtain ⟨rfl, hnil⟩ := List.cons.inj hrest
      exact ⟨hnil, rfl⟩
    | cons x rest =>
      obtain ⟨rfl, -⟩ := List.cons.inj hrest
      exact absurd (hall v (List.mem_append_right _ List.mem_cons_self)) hv

namespace Dialogue

variable {Q : Type} {A : Q → Type} {β γ : Type}

/-- The exchanges `t` lead from a dialogue to the one that is left after them. -/
inductive Reaches : Dialogue A β → Record A → Dialogue A β → Prop where
  /-- Nothing has been asked. -/
  | refl (d : Dialogue A β) : Reaches d [] d
  /-- The first question has been answered, and the rest follows. -/
  | ask {q : Q} {next : A q → Dialogue A β} {a : A q} {t : Record A} {d : Dialogue A β} :
      Reaches (next a) t d → Reaches (ask q next) (⟨q, a⟩ :: t) d

/-- The exchanges `t` lead to the end of a dialogue, with result `b`. -/
def Ends (d : Dialogue A β) (t : Record A) (b : β) : Prop := d.Reaches t (done b)

@[simp] theorem ends_done_iff {b c : β} {t : Record A} :
    (done b : Dialogue A β).Ends t c ↔ t = [] ∧ c = b := by
  constructor
  · intro h
    cases h
    exact ⟨rfl, rfl⟩
  · intro h
    obtain ⟨rfl, rfl⟩ := h
    exact .refl _

theorem ends_ask_iff {q : Q} {next : A q → Dialogue A β} {t : Record A} {b : β} :
    (ask q next).Ends t b ↔ ∃ a t', t = ⟨q, a⟩ :: t' ∧ (next a).Ends t' b := by
  constructor
  · intro h
    cases h with
    | ask h => exact ⟨_, _, rfl, h⟩
  · intro h
    obtain ⟨a, t', rfl, h⟩ := h
    exact .ask h

/-- A path leads somewhere with its first exchanges, and goes on from there. -/
theorem Ends.split {d : Dialogue A β} {t u : Record A} {b : β} (h : d.Ends (t ++ u) b) :
    ∃ d', d.Reaches t d' ∧ d'.Ends u b := by
  induction t generalizing d with
  | nil => exact ⟨d, .refl d, h⟩
  | cons e t ih =>
    cases h with
    | ask h =>
      obtain ⟨d', ht, hu⟩ := ih h
      exact ⟨d', .ask ht, hu⟩

/-- Two dialogues in sequence. -/
theorem ends_bind_iff {d : Dialogue A β} {f : β → Dialogue A γ} {t : Record A} {c : γ} :
    (d >>= f).Ends t c ↔ ∃ t₁ b t₂, d.Ends t₁ b ∧ (f b).Ends t₂ c ∧ t = t₁ ++ t₂ := by
  induction d generalizing t with
  | done b =>
    rw [done_bind]
    constructor
    · intro h
      exact ⟨[], b, t, by simp, h, rfl⟩
    · intro h
      obtain ⟨t₁, b', t₂, h₁, h₂, rfl⟩ := h
      obtain ⟨rfl, rfl⟩ := ends_done_iff.mp h₁
      exact h₂
  | ask q next ih =>
    rw [ask_bind, ends_ask_iff]
    constructor
    · intro h
      obtain ⟨a, t', rfl, h⟩ := h
      obtain ⟨t₁, b, t₂, h₁, h₂, rfl⟩ := (ih a).mp h
      exact ⟨⟨q, a⟩ :: t₁, b, t₂, .ask h₁, h₂, rfl⟩
    · intro h
      obtain ⟨t₁, b, t₂, h₁, h₂, rfl⟩ := h
      obtain ⟨a, t', rfl, h₁'⟩ := ends_ask_iff.mp h₁
      exact ⟨a, t' ++ t₂, rfl, (ih a).mpr ⟨t', b, t₂, h₁', h₂, rfl⟩⟩

@[simp] theorem ends_query_iff {q : Q} {t : Record A} {b : A q} :
    (query q).Ends t b ↔ t = [⟨q, b⟩] := by
  rw [query, ends_ask_iff]
  constructor
  · intro h
    obtain ⟨a, t', rfl, h⟩ := h
    obtain ⟨rfl, rfl⟩ := ends_done_iff.mp h
    rfl
  · rintro rfl
    exact ⟨b, [], rfl, by simp⟩

theorem ends_map_iff {d : Dialogue A β} {f : β → γ} {t : Record A} {c : γ} :
    (f <$> d).Ends t c ↔ ∃ b, d.Ends t b ∧ c = f b := by
  rw [map_eq_pure_bind, ends_bind_iff]
  constructor
  · intro h
    obtain ⟨t₁, b, t₂, h₁, h₂, rfl⟩ := h
    obtain ⟨rfl, rfl⟩ := ends_done_iff.mp h₂
    exact ⟨b, by simpa using h₁, rfl⟩
  · intro h
    obtain ⟨b, h, rfl⟩ := h
    exact ⟨t, b, [], h, by simp, by simp⟩

/-! ### Questions -/

/-- Some answers lead a dialogue to the question `q`. -/
def Asks : Dialogue A β → Q → Prop
  | done _, _ => False
  | ask p next, q => q = p ∨ ∃ a, (next a).Asks q

theorem Reaches.asks {d d' : Dialogue A β} {t : Record A} (h : d.Reaches t d') :
    (∀ x ∈ t, d.Asks x.question) ∧ ∀ q, d'.Asks q → d.Asks q := by
  induction h with
  | refl d => exact ⟨by simp, fun q hq => hq⟩
  | ask h ih =>
    refine ⟨List.forall_mem_cons.mpr ⟨Or.inl rfl, fun x hx => ?_⟩, fun q hq => ?_⟩
    · exact Or.inr ⟨_, ih.1 x hx⟩
    · exact Or.inr ⟨_, ih.2 q hq⟩

/-- The questions of a path are questions of the dialogue. -/
theorem Ends.asks {d : Dialogue A β} {t : Record A} {b : β} (h : d.Ends t b) :
    ∀ x ∈ t, d.Asks x.question :=
  (Reaches.asks h).1

/-! ### Bounds on questions -/

/-- The dialogue asks at most `m` questions, whatever the answers. -/
def AsksAtMost : Dialogue A β → Nat → Prop
  | done _, _ => True
  | ask _ _, 0 => False
  | ask _ next, m + 1 => ∀ a, (next a).AsksAtMost m

/-- What has been asked leaves so much less to ask. -/
theorem AsksAtMost.of_reaches {d d' : Dialogue A β} {t : Record A} {m : Nat} (h : d.AsksAtMost m)
    (ht : d.Reaches t d') : ∃ m', m = t.length + m' ∧ d'.AsksAtMost m' := by
  induction ht generalizing m with
  | refl d => exact ⟨m, by simp, h⟩
  | ask ht ih =>
    cases m with
    | zero => exact absurd h id
    | succ m =>
      obtain ⟨m', rfl, hm'⟩ := ih (h _)
      exact ⟨m', by simp only [List.length_cons]; omega, hm'⟩

theorem AsksAtMost.length_le {d : Dialogue A β} {t : Record A} {b : β} {m : Nat}
    (h : d.AsksAtMost m) (ht : d.Ends t b) : t.length ≤ m := by
  obtain ⟨m', rfl, -⟩ := h.of_reaches ht
  exact Nat.le_add_right _ _

/-- Where there is a question left, the bound has not been reached. -/
theorem AsksAtMost.length_lt {d : Dialogue A β} {t : Record A} {q : Q} {next : A q → Dialogue A β}
    {m : Nat} (h : d.AsksAtMost m) (ht : d.Reaches t (.ask q next)) : t.length < m := by
  obtain ⟨m', rfl, hm'⟩ := h.of_reaches ht
  cases m' with
  | zero => exact absurd hm' id
  | succ m' => omega

/-! ### Answers that are dialogues -/

/-- A dialogue whose questions are answered in another dialogue, which is answered in turn. -/
theorem run_run {R : Type} {B : R → Type} {m : Type → Type} [Monad m] [LawfulMonad m]
    (relay : (q : Q) → Dialogue B (A q)) (answer : (r : R) → m (B r)) (d : Dialogue A β) :
    (d.run relay).run answer = d.run fun q => (relay q).run answer := by
  induction d with
  | done b => rfl
  | ask q next ih =>
    rw [run_ask, run_bind, run_ask]
    simp only [ih]

/-! ### Answers without a state -/

/-- The result of a dialogue whose questions a function answers. -/
def answered (answer : (q : Q) → A q) (d : Dialogue A β) : β :=
  Id.run (d.run fun q => pure (answer q))

theorem answered_ask (answer : (q : Q) → A q) (q : Q) (next : A q → Dialogue A β) :
    (ask q next).answered answer = (next (answer q)).answered answer := rfl

/-- In any monad, such a dialogue has that result and no effect. -/
theorem run_pure {m : Type → Type} [Monad m] [LawfulMonad m] (answer : (q : Q) → A q)
    (d : Dialogue A β) : d.run (fun q => (pure (answer q) : m (A q))) = pure (d.answered answer) := by
  induction d with
  | done b => rfl
  | ask q next ih => rw [run_ask, pure_bind, answered_ask, ih]

/-- There is a path on which the function gives all answers. -/
theorem exists_ends_answered (answer : (q : Q) → A q) (d : Dialogue A β) :
    ∃ t, d.Ends t (d.answered answer) ∧ ∀ x ∈ t, x.answer = answer x.question := by
  induction d with
  | done b => exact ⟨[], ends_done_iff.mpr ⟨rfl, rfl⟩, nofun⟩
  | ask q next ih =>
    obtain ⟨t, h, ht⟩ := ih (answer q)
    exact ⟨⟨q, answer q⟩ :: t, .ask h, List.forall_mem_cons.mpr ⟨rfl, ht⟩⟩

/-- A path on which the function has given all answers leads to that result. -/
theorem Ends.eq_answered (answer : (q : Q) → A q) {d : Dialogue A β} {t : Record A} {b : β}
    (h : d.Ends t b) (ht : ∀ x ∈ t, x.answer = answer x.question) : b = d.answered answer := by
  induction d generalizing t with
  | done c => exact (ends_done_iff.mp h).2
  | ask q next ih =>
    obtain ⟨a, t', rfl, h'⟩ := ends_ask_iff.mp h
    obtain ⟨ha, ht'⟩ := List.forall_mem_cons.mp ht
    have ha : a = answer q := ha
    rw [answered_ask, ← ha]
    exact ih a h' ht'

/-- The exchanges of a dialogue whose questions a function answers. -/
def exchanged (answer : (q : Q) → A q) (d : Dialogue A β) : Record A :=
  (Id.run (d.record fun q => pure (answer q))).2

theorem exchanged_ask (answer : (q : Q) → A q) (q : Q) (next : A q → Dialogue A β) :
    (ask q next).exchanged answer = ⟨q, answer q⟩ :: (next (answer q)).exchanged answer := by
  rw [exchanged, record_ask]
  rfl

theorem exchanged_bind (answer : (q : Q) → A q) (d : Dialogue A β) (f : β → Dialogue A γ) :
    (d >>= f).exchanged answer =
      d.exchanged answer ++ (f (d.answered answer)).exchanged answer := by
  induction d with
  | done b => rfl
  | ask q next ih => rw [ask_bind, exchanged_ask, exchanged_ask, ih, answered_ask, List.cons_append]

/-- A function that answers as on a path is asked its questions, and then what is left. -/
theorem Reaches.exchanged_eq {answer : (q : Q) → A q} {d d' : Dialogue A β} {u : Record A}
    (h : d.Reaches u d') (hu : ∀ e ∈ u, e.answer = answer e.question) :
    d.exchanged answer = u ++ d'.exchanged answer := by
  induction h with
  | refl d => rfl
  | @ask q next a u d' _ ih =>
    obtain ⟨ha, hu⟩ := List.forall_mem_cons.mp hu
    have ha : a = answer q := ha
    rw [exchanged_ask, ← ha, ih hu, List.cons_append]

/-- The exchanges are a path to the result. -/
theorem ends_exchanged (answer : (q : Q) → A q) (d : Dialogue A β) :
    d.Ends (d.exchanged answer) (d.answered answer) ∧
      ∀ x ∈ d.exchanged answer, x.answer = answer x.question := by
  obtain ⟨t, h, ht⟩ := exists_ends_answered answer d
  have heq : d.exchanged answer = t ++ [] := h.exchanged_eq ht
  rw [heq, List.append_nil]
  exact ⟨h, ht⟩

/-- The record is the result together with the exchanges. -/
theorem record_eq_answered (answer : (q : Q) → A q) (d : Dialogue A β) :
    Id.run (d.record fun q => pure (answer q)) = (d.answered answer, d.exchanged answer) :=
  Prod.ext (fst_record (m := Id) (fun q => pure (answer q)) d) rfl

/-- What holds of the questions of all paths of a dialogue holds of its first question, if questions
can be answered, and of those of all paths after it. -/
theorem forall_ends_ask (hinhabited : ∀ q, Nonempty (A q)) {P : Q → Prop} {q : Q}
    {next : A q → Dialogue A β} (h : ∀ t b, (ask q next).Ends t b → ∀ x ∈ t, P x.question) :
    P q ∧ ∀ a t b, (next a).Ends t b → ∀ x ∈ t, P x.question := by
  have hnext : ∀ a t b, (next a).Ends t b → ∀ x ∈ (⟨q, a⟩ : Exchange A) :: t, P x.question :=
    fun a t b ht => h _ b (.ask ht)
  constructor
  · let answer (p : Q) : A p := Classical.choice (hinhabited p)
    obtain ⟨t, ht, -⟩ := exists_ends_answered answer (next (answer q))
    exact hnext _ t _ ht _ List.mem_cons_self
  · exact fun a t b ht => (List.forall_mem_cons.mp (hnext a t b ht)).2

/-! ### Answers that may fail -/

section Attempt

variable {ε : Type}

/-- The dialogue with callbacks that may fail: an answer is a value or a failure, and the first
failure is the result. -/
def attempt (ε : Type) (d : Dialogue A β) : Dialogue (fun q => Except ε (A q)) (Except ε β) :=
  (d.run fun q => (ExceptT.mk (query q) : ExceptT ε (Dialogue fun q => Except ε (A q)) (A q))).run

/-- Exchanges in which no callback failed. -/
def unfailing (ε : Type) (t : Record A) : Record fun q => Except ε (A q) :=
  t.map fun e => ⟨e.question, .ok e.answer⟩

theorem error_notMem_unfailing {t : Record A} {q : Q} {e : ε} :
    ⟨q, .error e⟩ ∉ unfailing ε t := by
  intro h
  obtain ⟨x, -, hx⟩ := List.mem_map.mp h
  cases hx

theorem attempt_ask (q : Q) (next : A q → Dialogue A β) :
    (ask q next).attempt ε = ask q fun r => match r with
      | .ok a => (next a).attempt ε
      | .error e => done (.error e) := by
  unfold attempt
  rw [run_ask, ExceptT.run_bind]
  change ask q _ = ask q _
  congr 1
  funext r
  cases r <;> rfl

/-- Callbacks that may fail lead to the end of a dialogue, or to a question at which one fails. -/
theorem Ends.of_attempt {d : Dialogue A β} {t : Record fun q => Except ε (A q)} {r : Except ε β}
    (h : (d.attempt ε).Ends t r) :
    (∃ u b, d.Ends u b ∧ t = unfailing ε u ∧ r = .ok b) ∨
      ∃ u q next e, d.Reaches u (ask q next) ∧ t = unfailing ε u ++ [⟨q, .error e⟩] ∧
        r = .error e := by
  induction d generalizing t with
  | done b =>
    obtain ⟨rfl, rfl⟩ := ends_done_iff.mp h
    exact Or.inl ⟨[], b, .refl _, rfl, rfl⟩
  | ask q next ih =>
    rw [attempt_ask] at h
    obtain ⟨a, t', rfl, h'⟩ := ends_ask_iff.mp h
    cases a with
    | error e =>
      obtain ⟨rfl, rfl⟩ := ends_done_iff.mp h'
      exact Or.inr ⟨[], q, next, e, .refl _, rfl, rfl⟩
    | ok a =>
      rcases ih a h' with ⟨u, b, hu, rfl, rfl⟩ | ⟨u, p, next', e, hu, rfl, rfl⟩
      · exact Or.inl ⟨⟨q, a⟩ :: u, b, .ask hu, rfl, rfl⟩
      · exact Or.inr ⟨⟨q, a⟩ :: u, p, next', e, .ask hu, rfl, rfl⟩

/-- Callbacks that have not failed yet have led along a path. -/
theorem Ends.reaches_of_unfailing {d : Dialogue A β} {u : Record A}
    {t : Record fun q => Except ε (A q)} {r : Except ε β}
    (h : (d.attempt ε).Ends (unfailing ε u ++ t) r) : ∃ d', d.Reaches u d' := by
  induction u generalizing d with
  | nil => exact ⟨d, .refl d⟩
  | cons e u ih =>
    cases d with
    | done b => cases (ends_done_iff.mp h).1
    | ask q next =>
      rw [attempt_ask] at h
      obtain ⟨a, t', heq, h'⟩ := ends_ask_iff.mp h
      obtain ⟨he, rfl⟩ := List.cons.inj heq
      cases he
      obtain ⟨d', hd'⟩ := ih h'
      exact ⟨d', .ask hd'⟩

/-- The result is that of running the dialogue on the callbacks in the monad of failures. -/
theorem run_attempt {m : Type → Type} [Monad m] [LawfulMonad m]
    (answer : (q : Q) → m (Except ε (A q))) (d : Dialogue A β) :
    (d.attempt ε).run answer = (d.run fun q => ExceptT.mk (answer q)).run := by
  induction d with
  | done b => rfl
  | ask q next ih =>
    rw [attempt_ask, run_ask, run_ask, ExceptT.run_bind]
    change (answer q >>= _) = (answer q >>= _)
    congr 1
    funext r
    cases r with
    | ok a => exact ih a
    | error e => rfl

end Attempt

/-! ### Answers that depend on a state -/

section Record

variable {σ : Type} {answer : (q : Q) → StateM σ (A q)}

/-- The record of a question and what follows its answer. -/
theorem record_ask_run (q : Q) (next : A q → Dialogue A β) (s : σ) :
    (((ask q next).record answer).run s).1 =
      let p := (((next ((answer q).run s).1).record answer).run ((answer q).run s).2).1
      (p.1, ⟨q, ((answer q).run s).1⟩ :: p.2) := by
  rw [record_ask]
  rfl

/-- The record of a run is a path to the run's result. -/
theorem ends_record (d : Dialogue A β) (s : σ) :
    d.Ends ((d.record answer).run s).1.2 ((d.record answer).run s).1.1 := by
  induction d generalizing s with
  | done b => exact ends_done_iff.mpr ⟨rfl, rfl⟩
  | ask q next ih =>
    rw [record_ask, ends_ask_iff]
    exact ⟨_, _, rfl, ih _ _⟩

/-- Each answer in a record is the callbacks' answer in some state. -/
theorem answer_of_mem_record {d : Dialogue A β} {s : σ} {x : Exchange A}
    (h : x ∈ ((d.record answer).run s).1.2) : ∃ s', ((answer x.question).run s').1 = x.answer := by
  induction d generalizing s with
  | done b => exact absurd (show x ∈ [] from h) List.not_mem_nil
  | ask q next ih =>
    rw [record_ask] at h
    rcases List.mem_cons.mp h with rfl | h
    · exact ⟨s, rfl⟩
    · exact ih _ h

/-- Callbacks that answer as on a path, in every state, are asked its questions. -/
theorem Reaches.record_attempt {ε : Type} {answer : (q : Q) → StateM σ (Except ε (A q))}
    {d d' : Dialogue A β} {u : Record A} (h : d.Reaches u d')
    (hu : ∀ e ∈ u, ∀ s, ((answer e.question).run s).1 = .ok e.answer) (s : σ) :
    ∃ rest, (((d.attempt ε).record answer).run s).1.2 = unfailing ε u ++ rest := by
  induction h generalizing s with
  | refl d => exact ⟨_, rfl⟩
  | @ask q next a u d' _ ih =>
    obtain ⟨ha, hu⟩ := List.forall_mem_cons.mp hu
    have ha : ((answer q).run s).1 = .ok a := ha s
    obtain ⟨rest, hrest⟩ := ih hu ((answer q).run s).2
    refine ⟨rest, ?_⟩
    rw [attempt_ask, record_ask_run, ha]
    exact congrArg (⟨q, .ok a⟩ :: ·) hrest

/-- The exchanges are those that the callbacks give one after another, from one state to another. -/
inductive Replays (answer : (q : Q) → StateM σ (A q)) : σ → Record A → σ → Prop where
  /-- Nothing is asked. -/
  | nil {s : σ} : Replays answer s [] s
  /-- A question is asked, and the rest follows. -/
  | cons {s s' : σ} {q : Q} {t : Record A} : Replays answer ((answer q).run s).2 t s' →
      Replays answer s (⟨q, ((answer q).run s).1⟩ :: t) s'

theorem Replays.append {s₁ s₂ s₃ : σ} {t u : Record A} (h : Replays answer s₁ t s₂)
    (h' : Replays answer s₂ u s₃) : Replays answer s₁ (t ++ u) s₃ := by
  induction h with
  | nil => exact h'
  | cons _ ih => exact .cons (ih h')

/-- The record of a run has the answers of the callbacks in order, to the state that they end in. -/
theorem replays_record (d : Dialogue A β) (s : σ) :
    Replays answer s ((d.record answer).run s).1.2 ((d.record answer).run s).2 := by
  induction d generalizing s with
  | done b => exact .nil
  | ask q next ih =>
    rw [record_ask]
    exact .cons (ih _ _)

end Record

end Dialogue

end Optimum
