import Mathlib.Order.Basic

/-!
# Programs of atomic actions

A thread as a tree: an atomic action, and for each answer the rest of the
program.  Between two actions of a thread other threads run, so a program says
nothing about the state it runs in; what it relies on is kept in a world that
only grows (`Spec`, `Safe`).
-/

namespace MemFabric.Machine

/-- A program with actions `a : A`, each answered with a value of type `R a`. -/
inductive Prog (A : Type) (R : A → Type) (α : Type) : Type
  | ret (x : α)
  | act (a : A) (k : R a → Prog A R α)

namespace Prog

variable {A : Type} {R : A → Type} {α β : Type}

def bind : Prog A R α → (α → Prog A R β) → Prog A R β
  | ret x, f => f x
  | act a k, f => act a fun r => bind (k r) f

instance : Monad (Prog A R) where
  pure := ret
  bind := bind

def perform (a : A) : Prog A R (R a) := act a ret

theorem bind_assoc {γ : Type} (p : Prog A R α) (f : α → Prog A R β) (g : β → Prog A R γ) :
    p >>= f >>= g = p >>= fun x => f x >>= g := by
  induction p with
  | ret x => rfl
  | act a k ih => exact congrArg (act a) (funext ih)

end Prog

/-- What programs may do and rely on in a world: the actions that are allowed, and the
answers that are possible.  What is allowed stays allowed when the world grows. -/
structure Spec (A : Type) (R : A → Type) (W : Type) [Preorder W] where
  ok : W → A → Prop
  resp : W → (a : A) → R a → Prop
  ok_mono : ∀ {w w' a}, w ≤ w' → ok w a → ok w' a

namespace Prog

variable {A : Type} {R : A → Type} {α β W : Type} [Preorder W]

/-- Every action the program ever takes is allowed, whatever the possible answers are
and however the world grows in between, and its result is as `Q` says. -/
def Safe (S : Spec A R W) (Q : α → W → Prop) : Prog A R α → W → Prop
  | ret x, w => Q x w
  | act a k, w => S.ok w a ∧ ∀ w', w ≤ w' → ∀ r, S.resp w' a r → Safe S Q (k r) w'

variable {S : Spec A R W} {Q : α → W → Prop} {Q' : β → W → Prop} {w w' : W}

variable {p : Prog A R α} {f : α → Prog A R β}

theorem Safe.mono (hQ : ∀ x w w', w ≤ w' → Q x w → Q x w') (h : Safe S Q p w)
    (hle : w ≤ w') : Safe S Q p w' := by
  cases p with
  | ret x => exact hQ x w w' hle h
  | act a k => exact ⟨S.ok_mono hle h.1, fun w'' hw => h.2 w'' (hle.trans hw)⟩

theorem safe_pure {x : α} (h : Q x w) : Safe S Q (pure x : Prog A R α) w := h

theorem Safe.perform_bind {a : A} {f : R a → Prog A R β} (ha : S.ok w a)
    (hf : ∀ w', w ≤ w' → ∀ r, S.resp w' a r → Safe S Q' (f r) w') :
    Safe S Q' (Prog.perform a >>= f) w :=
  ⟨ha, hf⟩

theorem Safe.bind (hp : Safe S Q p w)
    (hf : ∀ w', w ≤ w' → ∀ x, Q x w' → Safe S Q' (f x) w') : Safe S Q' (p >>= f) w := by
  induction p generalizing w with
  | ret x => exact hf w le_rfl x hp
  | act a k ih =>
    refine ⟨hp.1, fun w' hw r hr => ?_⟩
    exact ih r (hp.2 w' hw r hr) fun w'' hw' => hf w'' (hw.trans hw')

/-- Every action of the program, whatever the answers are, is as `P` says, and every
result as `Q` says. -/
def All (P : A → Prop) (Q : α → Prop) : Prog A R α → Prop
  | ret x => Q x
  | act a k => P a ∧ ∀ r, All P Q (k r)

theorem All.bind {P : A → Prop} {Q : α → Prop} {Q' : β → Prop} (hp : All P Q p)
    (hf : ∀ x, Q x → All P Q' (f x)) : All P Q' (p >>= f) := by
  induction p with
  | ret x => exact hf x hp
  | act a k ih => exact ⟨hp.1, fun r => ih r (hp.2 r)⟩

theorem All.imp {P P' : A → Prop} {Q Q' : α → Prop} (hp : All P Q p) (hP : ∀ a, P a → P' a)
    (hQ : ∀ x, Q x → Q' x) : All P' Q' p := by
  induction p with
  | ret x => exact hQ x hp
  | act a k ih => exact ⟨hP a hp.1, fun r => ih r (hp.2 r)⟩

/-- The program takes an action as `P` says before it returns, whatever the answers are. -/
def Must (P : A → Prop) : Prog A R α → Prop
  | ret _ => False
  | act a k => P a ∨ ∀ r, Must P (k r)

end Prog

/-- An account of what a program has done: what must hold before an action, the answers
that are possible, and the account after it. -/
structure Account (A : Type) (R : A → Type) (G : Type) where
  pre : G → A → Prop
  poss : G → (a : A) → R a → Prop
  post : G → (a : A) → R a → G

namespace Prog

variable {A : Type} {R : A → Type} {α β G : Type}

/-- The program can be accounted for from `g` on, and its result is as `Q` says. -/
def Follows (T : Account A R G) (Q : α → G → Prop) : Prog A R α → G → Prop
  | ret x, g => Q x g
  | act a k, g => T.pre g a ∧ ∀ r, T.poss g a r → Follows T Q (k r) (T.post g a r)

variable {T : Account A R G} {Q : α → G → Prop} {Q' : β → G → Prop} {g : G}

theorem Follows.perform_bind {a : A} {f : R a → Prog A R β} (ha : T.pre g a)
    (hf : ∀ r, T.poss g a r → Follows T Q' (f r) (T.post g a r)) :
    Follows T Q' (Prog.perform a >>= f) g :=
  ⟨ha, hf⟩

variable {p : Prog A R α}

theorem Follows.bind {f : α → Prog A R β} (hp : Follows T Q p g)
    (hf : ∀ x g', Q x g' → Follows T Q' (f x) g') : Follows T Q' (p >>= f) g := by
  induction p generalizing g with
  | ret x => exact hf x g hp
  | act a k ih => exact ⟨hp.1, fun r hr => ih r (hp.2 r hr)⟩

theorem All.follows {P : A → Prop} (h : All P (fun _ => True) p)
    (hP : ∀ g a, P a → T.pre g a ∧ ∀ r, T.post g a r = g) : Follows T (fun _ g' => g' = g) p g := by
  induction p with
  | ret x => rfl
  | act a k ih =>
    refine ⟨(hP g a h.1).1, fun r _ => ?_⟩
    rw [(hP g a h.1).2 r]
    exact ih r (h.2 r)

end Prog

end MemFabric.Machine
