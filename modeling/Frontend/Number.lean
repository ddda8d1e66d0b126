/-!
# Sums and powers

Sums of lists of natural numbers, and the powers that number formats are made of.
-/

namespace Frontend.Number

def total (ns : List Nat) : Nat := ns.foldr (fun n rest => n + rest) 0

@[simp] theorem total_nil : total [] = 0 := rfl

@[simp] theorem total_cons (n : Nat) (ns : List Nat) : total (n :: ns) = n + total ns := rfl

def twoTo (n : Nat) : Nat := Nat.pow 2 n

def tenTo (n : Nat) : Nat := Nat.pow 10 n

end Frontend.Number
