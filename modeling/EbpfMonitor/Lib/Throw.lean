/-! # Calls that throw

A function of the source that may throw is a computation in `Except ε`, one call after the other:
`orThrow` throws when a call has no result and `throwOn` when it reports an error.  A sequence of
calls succeeds exactly if each of them does (`bind_eq_ok`). -/

namespace Throw

variable {ε κ α β : Type}

/-- Throw when there is no value. -/
def orThrow (what : ε) : Option α → Except ε α
  | none => .error what
  | some a => .ok a

/-- Throw when there is an error. -/
def throwOn (what : κ → ε) : Option κ → Except ε Unit
  | none => .ok ()
  | some e => .error (what e)

theorem bind_eq_ok {x : Except ε α} {f : α → Except ε β} {b : β} :
    (x >>= f) = .ok b ↔ ∃ a, x = .ok a ∧ f a = .ok b := by
  cases x with
  | error e => simp [bind, Except.bind]
  | ok a => simp [bind, Except.bind]

theorem orThrow_eq_ok {what : ε} {o : Option α} {a : α} : orThrow what o = .ok a ↔ o = some a := by
  cases o <;> simp [orThrow]

theorem throwOn_eq_ok {what : κ → ε} {o : Option κ} {u : Unit} : throwOn what o = .ok u ↔ o = none := by
  cases o <;> simp [throwOn]

end Throw
