import Reckoner.Calculator

/-!
# Sessions

What a user does with one calculator, one action after the other. `performAll` is the calculator after
a list of actions, and `exchangesOfAll` the requests that its source got meanwhile, in order.
-/

set_option autoImplicit false

namespace Reckoner

/-- What can be done with a calculator. -/
inductive Action where
  | define (name : String) (value : Float)
  | evaluate (text : String)

namespace Calculator

variable {σ : Type} [ValueSource σ]

/-- The calculator after an action, whether or not the action succeeds. -/
def perform (c : Calculator σ) : Action → Calculator σ
  | .define name value => c.define name value
  | .evaluate text => (c.evaluate text).calculator

/-- The requests that an action makes. -/
def exchangesOf (c : Calculator σ) : Action → List Exchange
  | .define _ _ => []
  | .evaluate text => (c.evaluate text).exchanges

/-- The calculator after all of the actions. -/
def performAll (c : Calculator σ) (actions : List Action) : Calculator σ :=
  actions.foldl perform c

/-- The requests that the actions make. -/
def exchangesOfAll (c : Calculator σ) : List Action → List Exchange
  | [] => []
  | action :: actions => c.exchangesOf action ++ (c.perform action).exchangesOfAll actions

@[simp] theorem performAll_append (c : Calculator σ) (as bs : List Action) :
    c.performAll (as ++ bs) = (c.performAll as).performAll bs :=
  List.foldl_append

end Calculator

end Reckoner
