import Mathlib.Init

/-!
# `Interaction` — programs that ask their surroundings, and what holds at every request

A program over a state asks its surroundings for something, shows its state while it waits, and goes on from whatever
reply it gets. Code is written in a monad; loops are made of blocks, each of which ends in the label of the next one.
-/

namespace Interaction

/-- Requests with the state shown at each, and a continuation for every reply. -/
inductive Prog (S A : Type) (R : A → Type) (α : Type) where
  | done (s : S) (value : α)
  | act (s : S) (a : A) (next : R a → Prog S A R α)

/-- Code over a state. -/
def Code (S A : Type) (R : A → Type) (α : Type) : Type := S → Prog S A R α

/-- A request that has been answered: the state shown at it and the reply. -/
structure Event (S A : Type) (R : A → Type) where
  state : S
  action : A
  reply : R action

variable {S A : Type} {R : A → Type} {α β L : Type}

namespace Prog

/-- Continues every leaf. -/
def bind (f : α → Code S A R β) : Prog S A R α → Prog S A R β
  | done s value => f value s
  | act s a next => act s a fun r => bind f (next r)

end Prog

namespace Code

instance : Monad (Code S A R) where
  pure value s := .done s value
  bind code f s := (code s).bind f

/-- The state. -/
def get : Code S A R S := fun s => .done s s

/-- Changes the state. -/
def modify (f : S → S) : Code S A R Unit := fun s => .done (f s) ()

/-- Asks the surroundings. -/
def perform (a : A) : Code S A R (R a) := fun s => .act s a fun r => .done s r

end Code

/-! ## Safety along every reply -/

/-- Every request relates to the reply before it by `T`, and every leaf to its last reply by `Q`. -/
def Prog.Safe (T : Option (Event S A R) → S → A → Prop) (Q : Option (Event S A R) → S → α → Prop) :
    Option (Event S A R) → Prog S A R α → Prop
  | last, .done s value => Q last s value
  | last, .act s a next => T last s a ∧ ∀ r, (next r).Safe T Q (some ⟨s, a, r⟩)

/-- The same of code from a state. -/
def Safe (T : Option (Event S A R) → S → A → Prop) (Q : Option (Event S A R) → S → α → Prop)
    (last : Option (Event S A R)) (code : Code S A R α) (s : S) : Prop :=
  (code s).Safe T Q last

section Safety

variable {T : Option (Event S A R) → S → A → Prop} {Q Q' : Option (Event S A R) → S → α → Prop}
  {last : Option (Event S A R)} {s : S}

theorem Prog.safe_bind {f : α → Code S A R β} {Q : Option (Event S A R) → S → β → Prop} {p : Prog S A R α} :
    (p.bind f).Safe T Q last ↔ p.Safe T (fun last s value => Interaction.Safe T Q last (f value) s) last := by
  induction p generalizing last with
  | done s value => exact Iff.rfl
  | act s a next ih =>
    refine and_congr Iff.rfl (forall_congr' fun r => ?_)
    exact ih r

@[simp] theorem safe_pure (value : α) : Safe T Q last (pure value : Code S A R α) s ↔ Q last s value := Iff.rfl

@[simp] theorem safe_bind {code : Code S A R α} {f : α → Code S A R β} {Q : Option (Event S A R) → S → β → Prop} :
    Safe T Q last (code >>= f) s ↔ Safe T (fun last s value => Safe T Q last (f value) s) last code s :=
  Prog.safe_bind

@[simp] theorem safe_get {Q : Option (Event S A R) → S → S → Prop} :
    Safe T Q last (Code.get : Code S A R S) s ↔ Q last s s := Iff.rfl

@[simp] theorem safe_modify {Q : Option (Event S A R) → S → Unit → Prop} (f : S → S) :
    Safe T Q last (Code.modify f : Code S A R Unit) s ↔ Q last (f s) () := Iff.rfl

@[simp] theorem safe_perform (a : A) {Q : Option (Event S A R) → S → R a → Prop} :
    Safe T Q last (Code.perform a : Code S A R (R a)) s ↔ T last s a ∧ ∀ r, Q (some ⟨s, a, r⟩) s r := Iff.rfl

end Safety

/-! ## Blocks and the requests they reach -/

/-- What blocks reach from a first program: the remaining program, with the last reply. -/
inductive Reaches (blocks : L → Code S A R L) (start : Prog S A R L) : Option (Event S A R) → Prog S A R L → Prop where
  | start : Reaches blocks start none start
  | reply {last s a next} (h : Reaches blocks start last (.act s a next)) (r : R a) :
      Reaches blocks start (some ⟨s, a, r⟩) (next r)
  | jump {last s l} (h : Reaches blocks start last (.done s l)) : Reaches blocks start last (blocks l s)

variable {blocks : L → Code S A R L} {start : Prog S A R L} {T : Option (Event S A R) → S → A → Prop}
  {J : Option (Event S A R) → S → L → Prop}

/-- A label invariant that the first program establishes and every block keeps makes every reached program safe. -/
theorem Reaches.safe (hst : start.Safe T J none) (hblk : ∀ last s l, J last s l → Safe T J last (blocks l) s)
    {last : Option (Event S A R)} {p : Prog S A R L} (h : Reaches blocks start last p) : p.Safe T J last := by
  induction h with
  | start => exact hst
  | reply _ r ih => exact ih.2 r
  | jump _ ih => exact hblk _ _ _ ih

/-- And so every request that is reached relates to the reply before it. -/
theorem Reaches.request (hst : start.Safe T J none) (hblk : ∀ last s l, J last s l → Safe T J last (blocks l) s)
    {last : Option (Event S A R)} {s : S} {a : A} {next : R a → Prog S A R L}
    (h : Reaches blocks start last (.act s a next)) : T last s a :=
  (h.safe hst hblk).1

/-- A reply answers a request that was reached before it. -/
theorem Reaches.answered {e : Event S A R} {p : Prog S A R L} (h : Reaches blocks start (some e) p) :
    ∃ last next, Reaches blocks start last (.act e.state e.action next) := by
  generalize hlast : some e = last at h
  induction h with
  | start => cases hlast
  | reply h r _ =>
    obtain rfl := Option.some.inj hlast
    exact ⟨_, _, h⟩
  | jump _ ih => exact ih hlast

end Interaction
