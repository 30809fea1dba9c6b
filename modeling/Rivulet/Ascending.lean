/-!
# Finite sets as ascending lists

Names, allocation sites and expected tokens are shown in order and each once. Such a set is kept as
a strictly ascending list, built by inserting one element after the other.
-/

set_option autoImplicit false

namespace Rivulet.Ascending

variable {α : Type} [LT α] [DecidableLT α]

/-- Insert an element into an ascending list, unless it is there already. -/
def insert (a : α) : List α → List α
  | [] => [a]
  | b :: bs => if a < b then a :: b :: bs else if b < a then b :: insert a bs else b :: bs

/-- The elements of a list in ascending order, each once. -/
def ofList (as : List α) : List α := as.foldl (fun s a => insert a s) []

end Rivulet.Ascending
