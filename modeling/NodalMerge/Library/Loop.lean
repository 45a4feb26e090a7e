import Mathlib.Data.List.Basic

namespace Loop

/-- How one turn of a loop ends. -/
inductive Flow (State Failure : Type) where
  | next (state : State)
  | stop (state : State)
  | fail (state : State) (failure : Failure)

variable {State Item Failure : Type}

/-- A turn that goes on keeps the invariant, one that ends the loop leaves the result. -/
def Flow.Keeps (Inv Result : State → Prop) : Flow State Failure → Prop
  | .next state => Inv state
  | .stop state => Result state
  | .fail state _ => Result state

/-- The state after the loop and the failure that ended it. -/
def each (body : State → Item → Flow State Failure) (state : State) :
    List Item → State × Option Failure
  | [] => (state, none)
  | item :: rest =>
    match body state item with
    | .next after => each body after rest
    | .stop after => (after, none)
    | .fail after failure => (after, some failure)

/-- The invariant rule. -/
theorem each_invariant {body : State → Item → Flow State Failure} {items : List Item}
    {Inv Result : State → Prop} {state : State} (enough : ∀ state, Inv state → Result state)
    (kept : ∀ item ∈ items, ∀ before, Inv before → (body before item).Keeps Inv Result)
    (start : Inv state) : Result (each body state items).1 := by
  induction items generalizing state with
  | nil => exact enough state start
  | cons item rest ih =>
    have turn := kept item List.mem_cons_self state start
    rw [each]
    cases outcome : body state item with
    | next after =>
      rw [outcome] at turn
      exact ih (fun later member => kept later (List.mem_cons_of_mem _ member)) turn
    | stop after =>
      rw [outcome] at turn
      exact turn
    | fail after failure =>
      rw [outcome] at turn
      exact turn

/-- The order in which a listing happens to come. -/
structure Listing (Item : Type) where
  arrange : List Item → List Item
  perm : ∀ items, (arrange items).Perm items

def Listing.asStored : Listing Item := ⟨id, fun _ => List.Perm.refl _⟩

end Loop
