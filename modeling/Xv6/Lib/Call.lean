import Xv6.Lib.Monitor

/-!
# Lib/Call — one call of a monitor's function, from beginning to end

Seen from the process that makes it, a call is a run of turns of its own, and of what others do
while it waits for the lock or sleeps.  Its turns may also act on something that is not the object,
`W`.  What a call that returns has come to follows from what holds at each of its points
(`Call.rule`).
-/

namespace Code

variable {B C : Type}

/-- `I` holds at the point of the object that comes next, or `J` if the lock has to be taken first,
or `R` of what is returned. -/
def Next (I J : B → Prop) (R : Int → Prop) : Code B C → Prop
  | .done ret => R ret
  | .release ret => R ret
  | .acquire b => J b
  | .sleep _ b => J b
  | .body b => I b
  | .wakeup _ _ next => next.Next I J R

end Code

/-- **A call that returns**, from a program point on: `turn` is what the process does at a point of
the object, `others` what happens while it does not have the lock. -/
inductive Call {σ W B C : Type} (turn : B → σ → W → σ × Code B C → W → Prop)
    (others : σ → W → σ → W → Prop) : Code B C → σ → W → Int → σ → W → Prop
  | release {ret : Int} {x : σ} {w : W} : Call turn others (.release ret) x w ret x w
  | wakeup {c : C} {k : Nat} {next : Code B C} {x x' : σ} {w w' : W} {ret : Int}
      (rest : Call turn others next x w ret x' w') :
      Call turn others (.wakeup c k next) x w ret x' w'
  | acquire {b : B} {x x1 x' : σ} {w w1 w' : W} {ret : Int} (meanwhile : others x w x1 w1)
      (rest : Call turn others (.body b) x1 w1 ret x' w') :
      Call turn others (.acquire b) x w ret x' w'
  | sleep {c : C} {b : B} {x x1 x' : σ} {w w1 w' : W} {ret : Int} (meanwhile : others x w x1 w1)
      (rest : Call turn others (.body b) x1 w1 ret x' w') :
      Call turn others (.sleep c b) x w ret x' w'
  | body {b : B} {y : σ × Code B C} {x x' : σ} {w w1 w' : W} {ret : Int} (act : turn b x w y w1)
      (rest : Call turn others y.2 y.1 w1 ret x' w') : Call turn others (.body b) x w ret x' w'

namespace Call

variable {σ W B C : Type} {turn : B → σ → W → σ × Code B C → W → Prop}
  {others : σ → W → σ → W → Prop} {c : Code B C} {x x' : σ} {w w' : W} {ret : Int}
  {I J : B → σ → W → Prop} {R : Int → σ → W → Prop}

/-- **The rule for calls**: what every turn hands on from point to point, and others restore where
they come in between, gives what holds on return. -/
theorem rule (h : Call turn others c x w ret x' w') (h0 : c.Next (I · x w) (J · x w) (R · x w))
    (hturn : ∀ b x w y w1, I b x w → turn b x w y w1 →
      y.2.Next (I · y.1 w1) (J · y.1 w1) (R · y.1 w1))
    (hothers : ∀ b x w x1 w1, J b x w → others x w x1 w1 → I b x1 w1) : R ret x' w' := by
  induction h with
  | release => exact h0
  | wakeup _ ih => exact ih h0
  | acquire ho _ ih | sleep ho _ ih => exact ih (hothers _ _ _ _ _ h0 ho)
  | body ha _ ih => exact ih (hturn _ _ _ _ _ h0 ha)

/-- A call is one with weaker turns. -/
theorem mono {turn' : B → σ → W → σ × Code B C → W → Prop} (h : Call turn others c x w ret x' w')
    (ht : ∀ b x w y w1, turn b x w y w1 → turn' b x w y w1) :
    Call turn' others c x w ret x' w' := by
  induction h with
  | release => exact .release
  | wakeup _ ih => exact .wakeup ih
  | acquire ho _ ih => exact .acquire ho ih
  | sleep ho _ ih => exact .sleep ho ih
  | body ha _ ih => exact .body (ht _ _ _ _ _ ha) ih

end Call
