import Mathlib

-- Programs which ask their environment and report events. A question `q : Q` is answered by some `a : A`, and
-- the program continues with the answer. Recursive programs are given up to a certain depth.

inductive Program (Q A E α : Type)
  | done (a : α)
  | query (q : Q) (k : A → Program Q A E α)
  | emit (e : E) (k : Program Q A E α)
  | cutOff

namespace Program

variable {Q A E α β : Type} {env : Q → A}

def bind : Program Q A E α → (α → Program Q A E β) → Program Q A E β
  | done a,    f => f a
  | query q k, f => query q fun a => (k a).bind f
  | emit e k,  f => emit e (k.bind f)
  | cutOff,    _ => cutOff

instance : Monad (Program Q A E) where
  pure := done
  bind := bind

-- The result of a program in an environment that always gives the same answers, unless the program is cut off.
def result (env : Q → A) : Program Q A E α → Option α
  | done a    => some a
  | query q k => (k (env q)).result env
  | emit _ k  => k.result env
  | cutOff    => none

-- The events that are reported, until the program is finished or cut off.
def events (env : Q → A) : Program Q A E α → List E
  | done _    => []
  | query q k => (k (env q)).events env
  | emit e k  => e :: k.events env
  | cutOff    => []

-- The events and the result of a program that is not cut off.
def run (env : Q → A) (p : Program Q A E α) : Option (List E × α) :=
  (p.result env).map (p.events env, ·)

section Run

variable {p : Program Q A E α} {f : α → Program Q A E β} {a : α} {q : Q} {e : E} {k : A → Program Q A E α}

@[simp]
theorem run_pure : (pure a : Program Q A E α).run env = some ([], a) := rfl

theorem run_emit {p : Program Q A E α} :
    (emit e p).run env = (p.run env).map fun (es, a) => (e :: es, a) := by
  rw [run, run, Option.map_map]
  rfl

theorem result_bind : (p >>= f).result env = (p.result env).bind fun a => (f a).result env := by
  change (p.bind f).result env = _
  induction p
  case done       => rfl
  case query ih   => exact ih _
  case emit ih    => exact ih
  case cutOff     => rfl

theorem events_bind : (p >>= f).events env =
    p.events env ++ ((p.result env).map fun a => (f a).events env).getD [] := by
  change (p.bind f).events env = _
  induction p
  case done       => rfl
  case query ih   => exact ih _
  case emit ih    => exact congrArg _ ih
  case cutOff     => rfl

@[simp]
theorem run_bind : (p >>= f).run env =
    (p.run env).bind fun (es, a) => ((f a).run env).map fun (es', b) => (es ++ es', b) := by
  simp only [run, result_bind, events_bind]
  cases p.result env
  case none   => rfl
  case some a =>
    simp only [Option.bind_some, Option.map_some, Option.getD_some, Option.map_map]
    rfl

end Run
end Program
