import Mathlib.Logic.Basic

/-!
# `RustDfs.Conc.Prog`: programs as trees of atomic operations

An asynchronous function runs until it needs something from outside:
a file, a database, a channel, another task. Between two such points
nothing else can see it run. A `Prog` keeps exactly these points. It is
a result (`ret`), an atomic operation with a continuation from its
answer (`op`), the start of another task (`spawn`), or a wait for one
of several started tasks (`await`).

`Lang` collects the types a family of programs is written over. What an
operation does to a state is not part of it; `RustDfs.Conc.Pool` gives
the meaning of a set of running programs.

A `Prog` is a finite tree, so a loop whose number of rounds the
environment decides is written with fuel, and a program out of fuel is
one that has not come any further yet.
-/

set_option autoImplicit false

namespace RustDfs.Conc

/-- The types a family of programs is written over: the atomic
operations with the answer type of each, the places tasks run in, the
descriptions of tasks, and the results tasks end with. -/
structure Lang where
  Op : Type
  Ans : Op → Type
  Slot : Type
  Task : Type
  Res : Type

/-- A program over `L` that ends with a value of type `α`. -/
inductive Prog (L : Lang) (α : Type) : Type where
  | ret (a : α)
  | op (o : L.Op) (k : L.Ans o → Prog L α)
  | spawn (t : L.Task) (k : Prog L α)
  | await (js : List L.Slot) (k : L.Slot → L.Res → Prog L α)

namespace Prog

variable {L : Lang} {α β γ : Type}

/-- Sequencing: the second program takes over where the first ends. -/
def bind : Prog L α → (α → Prog L β) → Prog L β
  | ret a, f => f a
  | op o k, f => op o fun a => (k a).bind f
  | spawn t k, f => spawn t (k.bind f)
  | await js k, f => await js fun j r => (k j r).bind f

instance : Monad (Prog L) where
  pure := ret
  bind := bind

/-- The program of one operation. -/
def perform (o : L.Op) : Prog L (L.Ans o) := op o ret

@[simp] theorem pure_eq (a : α) : (pure a : Prog L α) = ret a := rfl

/-- The first program ends with its own value: nothing is added. -/
theorem bind_ret (p : Prog L α) : (p >>= ret) = p := by
  induction p with
  | ret a => rfl
  | op o k ih => exact congrArg (op o) (funext ih)
  | spawn t k ih => exact congrArg (spawn t) ih
  | await js k ih => exact congrArg (await js) (funext fun j => funext (ih j))

/-- Sequencing is associative. -/
theorem bind_assoc (p : Prog L α) (f : α → Prog L β) (g : β → Prog L γ) :
    ((p >>= f) >>= g) = (p >>= fun a => f a >>= g) := by
  induction p with
  | ret a => rfl
  | op o k ih => exact congrArg (op o) (funext ih)
  | spawn t k ih => exact congrArg (spawn t) ih
  | await js k ih => exact congrArg (await js) (funext fun j => funext (ih j))

instance : LawfulMonad (Prog L) :=
  LawfulMonad.mk' (Prog L) bind_ret (fun _ _ => rfl) bind_assoc

end Prog

end RustDfs.Conc
