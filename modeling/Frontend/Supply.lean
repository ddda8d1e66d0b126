import Frontend.Text.Basic

/-!
# Fresh names

Every name in the code is made from a counter that only goes up, so no name is given out twice.
Variables, functions and classes share one counter; temporaries and labels have their own.
-/

namespace Frontend

/-- How many names were given out. -/
structure Supply where
  rids : Nat := 0
  temps : Nat := 0
  labels : Nat := 0
  deriving DecidableEq, Repr, Inhabited

namespace Supply

/-- A raw id for a name. -/
def rid (s : Supply) (name : String) : String × Supply :=
  (name ++ "_" ++ Text.ofNat s.rids, { s with rids := s.rids + 1 })

/-- A raw id for a function; that of a method also names its class. -/
def functionRid (s : Supply) (owner : Option String) (name : String) : String × Supply :=
  match owner with
  | some cls => s.rid ("f_" ++ cls ++ "_" ++ name)
  | none => s.rid ("f_" ++ name)

/-- A raw id for a class. -/
def classRid (s : Supply) (name : String) : String × Supply := s.rid ("T_" ++ name)

def temp (s : Supply) : String × Supply :=
  ("%t" ++ Text.ofNat s.temps, { s with temps := s.temps + 1 })

/-- Several temporaries. -/
def takeTemps (s : Supply) : Nat → List String × Supply
  | 0 => ([], s)
  | n + 1 =>
    let (first, s) := s.temp
    let (more, s) := s.takeTemps n
    (first :: more, s)

def label (s : Supply) : String × Supply :=
  ("%L" ++ Text.ofNat s.labels, { s with labels := s.labels + 1 })

end Supply

end Frontend
