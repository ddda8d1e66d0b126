import Frontend.Lowering.State

/-!
# Control flow

Branches and loops. The end label of a chain of tests lies on top of the operand stack while the chain
is lowered, so every test of the chain jumps to the same end. A loop enters its labels in its scope
under words that no variable can have.
-/

namespace Frontend.Lower

/-- The end label on top of the stack. -/
def endLabel? : Lower (Option String) := ask fun s =>
  match s.operands with
  | o :: _ => if o.kind == .label then some o.raw else none
  | [] => none

/-- One test of a chain with what to do when it holds. -/
def condition (visit : Visit) (c : Condition) : Lower Unit := do
  match ← endLabel? with
  | none => fail (Complaint.unsupportedText c.pos c.text)
  | some finish =>
    let test ← materialize (← eval visit c.test)
    let skip ← freshLabel
    emit .jumpIfFalse [test.raw, skip]
    visit (.block c.body)
    emit .jump [finish]
    emit .set [skip]

def branch (visit : Visit) (tests : List Condition) (otherwise : Option Block) : Lower Unit := do
  let finish ← freshLabel
  forEffect do
    push (.label finish)
    forAll (condition visit) tests
    match otherwise with
    | some body => visit (.block body)
    | none => pure ()
    emit .set [finish]

/-- The word under which a loop's end is known in its scope. -/
def breakWord : String := "break"

/-- The word under which a loop's next round is known in its scope. -/
def continueWord : String := "continue"

/-- Enters a label of a loop in its scope. -/
def enterTarget (word rid : String) (pos : Position) : Lower Unit := do
  let id ← newSymbol { name := word, rid, pos, detail := .target }
  insert id

/-- A loop; one with an update has a label of its own for the next round. -/
def loop (visit : Visit) (pos : Position) (init : Option Node) (test : Node)
    (update : Option Node) (body : Block) : Lower Unit :=
  inScope .loop do
    if let some n := init then exec visit n
    let start ← freshLabel
    let finish ← freshLabel
    let next ← if update.isSome then freshLabel else pure start
    enterTarget breakWord finish pos
    enterTarget continueWord next pos
    emit .untilLoop [start, finish]
    emit .set [start]
    let holds ← materialize (← eval visit test)
    emit .jumpIfFalse [holds.raw, finish]
    visit (.block body)
    match update with
    | some n =>
      emit .set [next]
      exec visit n
    | none => pure ()
    emit .jump [start]
    emit .set [finish]
    emit .finish []

/-- The label that a word stands for within the present function. -/
def loopTarget? (word : String) : Lower (Option String) := do
  let t ← table
  return (t.findInFunction? word).bind fun id =>
    let s := t.get id
    if s.detail matches .target then some s.rid else none

/-- The diagnostic for a word that belongs into a loop. -/
def outsideLoop (pos : Position) (word : String) (message : Phrase) : Diagnostic :=
  Complaint.marking word (.mkAt .semantic Code.outsideLoop pos message)

/-- Leaves the innermost loop. -/
def breakOut (pos : Position) : Lower Unit := do
  match ← loopTarget? breakWord with
  | some _ => emit .exitLoop []
  | none => fail (outsideLoop pos breakWord (.entry .breakOutside []))

/-- Goes to the next round of the innermost loop. -/
def continueOn (pos : Position) : Lower Unit := do
  match ← loopTarget? continueWord with
  | some target => emit .jump [target]
  | none => fail (outsideLoop pos continueWord (.entry .continueOutside []))

end Frontend.Lower
