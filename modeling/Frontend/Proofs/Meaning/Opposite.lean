import Frontend.Proofs.Meaning.Expression
import Frontend.Proofs.Member.Surface

/-!
# Opposite numbers

A minus in front of an integer literal takes no code, and neither does the sign of a literal that is
subtracted: the opposite is found while the program is lowered. Behind a minus it is computed as a number of
64 bits, in a subtraction it is found in the text. Both ways are exact, but for the least number, whose
opposite is no number of 64 bits.
-/

namespace Frontend

variable {place : Target}

namespace Lower

open Meaning

variable {s s' : Lowering} {visit : Visit} {v : Int} {o left result : Operand} {op : Token} {n node : Node}

/-- Every number of 64 bits but the least one has an opposite. -/
theorem hasOpposite_of_ne (hv : Decimal.inWord v = true) (hleast : v ≠ -(Number.twoTo 63 : Int)) : hasOpposite v = true := by
  have half : Number.twoTo 63 = 9223372036854775808 := rfl
  rw [half] at hleast
  unfold hasOpposite
  unfold Decimal.inWord at hv ⊢
  rw [half] at hv ⊢
  simp only [Bool.and_eq_true, decide_eq_true_eq] at hv ⊢
  omega

theorem eval_of_push (h : visit n s = push o s) : eval visit n s = (.ok o, s) := by
  have hmark : ¬ (o :: s.operands).length ≤ s.operands.length := Nat.not_succ_le_self _
  unfold eval forValue
  rw [h]
  change (if (o :: s.operands).length ≤ s.operands.length then _ else _) = _
  rw [if_neg hmark]
  change (_, { s with operands := (o :: s.operands).drop ((o :: s.operands).length - s.operands.length) }) = _
  rw [List.length_cons, Nat.add_sub_cancel_left]
  rfl

/-- The opposite of a literal is found in its text. -/
theorem negate_literal : negate (.literal (Spelling.ofInt v) .int n) s = (.ok (Word.opposite (Spelling.ofInt v)), s) :=
  rfl

/-- A subtraction of a literal is the addition of its opposite. -/
theorem out_of_minus (h : binary op "-" left (.literal (Spelling.ofInt v) .int n) node s = (.ok result, s')) :
    s'.out = s.out.emit .add [left.raw, Word.opposite (Spelling.ofInt v), result.raw] := by
  have hrelation : (Operator.ofText? "-").bind Relation.ofOperator? = none := by decide
  unfold binary at h
  rw [hrelation] at h
  obtain ⟨type, s₁, htype, h⟩ := bind_eq_ok.mp h
  obtain ⟨w, s₂, hw, h⟩ := bind_eq_ok.mp h
  obtain ⟨-, rfl⟩ := ofExcept_eq_ok htype
  cases hw
  cases h
  rfl

/-! ## Assignments with an operator -/

theorem constructs_state {field : VariableInfo} {b : Bool} (h : constructs field s = (.ok b, s')) : s' = s := by
  obtain ⟨t, s₁, ⟨⟩, h⟩ := bind_eq_ok.mp h
  obtain ⟨f, s₂, hf, h⟩ := bind_eq_ok.mp h
  obtain rfl : s₂ = s := by
    cases hf
    rfl
  cases f <;> (cases h; rfl)

/-- The check of a constant leaves the state alone. -/
theorem checkConst_state (h : checkConst place n s = (.ok (), s')) : s' = s := by
  unfold checkConst at h
  cases hid : place.symbol? with
  | none =>
    rw [hid] at h
    cases h
    rfl
  | some id =>
    rw [hid] at h
    obtain ⟨sym, s₁, ⟨⟩, h⟩ := bind_eq_ok.mp h
    have hlast : ∀ {excused : Bool} {u : Lowering} {d : Diagnostic}, u = s →
        (if (!excused) = true then fail d else pure () : Lower Unit) u = (.ok (), s') → s' = s := by
      rintro (_ | _) u d rfl hu <;> cases hu
      rfl
    dsimp only at h
    split at h
    · split at h
      · obtain ⟨_, s₂, hexcused, h⟩ := bind_eq_ok.mp h
        exact hlast (constructs_state hexcused) h
      · obtain ⟨_, s₂, ⟨⟩, h⟩ := bind_eq_ok.mp h
        exact hlast rfl h
    · cases h
      rfl

/-- Where the result is put, it is stored in the target. -/
theorem stored_last {rest : Unit → Lower Unit} {x : Lowering} (hrest : ∀ u x y, rest u x = (.ok (), y) → y.out = x.out)
    (h : (storeTarget place result >>= rest) x = (.ok (), s')) :
    ∃ y, storeTarget place result x = (.ok (), y) ∧ s'.out = y.out := by
  obtain ⟨u, y, hy, h⟩ := bind_eq_ok.mp h
  exact ⟨y, hy, hrest u y s' h⟩

theorem stored_of_settle (h : settle place node result s = (.ok (), s')) :
    ∃ x y, x.out = s.out ∧ storeTarget place result x = (.ok (), y) ∧ s'.out = y.out := by
  unfold settle at h
  cases hid : place.symbol? with
  | none =>
    rw [hid] at h
    obtain ⟨y, hy, hout⟩ := stored_last (fun _ _ _ hpush => by cases place <;> cases hpush <;> rfl) h
    exact ⟨_, y, rfl, hy, hout⟩
  | some id =>
    rw [hid] at h
    obtain ⟨t, s₁, ⟨⟩, h⟩ := bind_eq_ok.mp h
    dsimp only at h
    split at h
    · cases h
    split at h
    · obtain ⟨_, s₂, ⟨⟩, h⟩ := bind_eq_ok.mp h
      obtain ⟨y, hy, hout⟩ := stored_last (fun _ _ _ hpush => by cases place <;> cases hpush <;> rfl) h
      refine ⟨_, y, ?_, hy, hout⟩
      rfl
    · obtain ⟨y, hy, hout⟩ := stored_last (fun _ _ _ hpush => by cases place <;> cases hpush <;> rfl) h
      exact ⟨_, y, rfl, hy, hout⟩

end Lower

open Lower Meaning

/-- Turning the sign of an integer literal around is exact, as a number behind a minus and as a text in a
subtraction: what stands for the opposite is read as the opposite, and as a number of 64 bits. -/
theorem opposite_folded {token : Token} {v : Int} (hv : Decimal.readWord? token.literal = some v)
    (hleast : v ≠ -(Number.twoTo 63 : Int)) :
    (∀ levels op s, op.kind = .op .minus → ∃ o, visit (levels + 1) (.unary op (.int token v)) s = push o s ∧
      Decimal.readWord? o.raw = some (-v)) ∧
    ∃ w, Decimal.readWord? w = some (-v) ∧
      (∀ levels s t, ∃ o, eval (visit (levels + 1)) (.int token v) s = (.ok o, s) ∧ negate o t = (.ok w, t)) ∧
      (∀ levels left op s s', op.literal = "-" →
        visit (levels + 2) (.binary left op (.int token v)) s = (.ok (), s') →
        ∃ l t result, eval (visit (levels + 1)) left s = (.ok l, t) ∧ s'.out = t.out.emit .add [l.raw, w, result]) ∧
      ∀ levels target op s s', op.kind = .op .minusAssign → op.literal = "-=" →
        visit (levels + 2) (.assign target op (.int token v)) s = (.ok (), s') →
        ∃ place t current u result x y, resolveTarget (visit (levels + 1)) target s = (.ok place, t) ∧
          loadTarget place target t = (.ok current, u) ∧ x.out = u.out.emit .add [current.raw, w, result.raw] ∧
          storeTarget place result x = (.ok (), y) ∧ s'.out = y.out := by
  have hopposite : hasOpposite v = true := hasOpposite_of_ne (Option.filter_eq_some_iff.mp hv).2 hleast
  have hneg : Decimal.inWord (-v) = true := (Bool.and_eq_true_iff.mp hopposite).2
  have hliteral : ∀ levels s, eval (visit (levels + 1)) (.int token v) s =
      (.ok (.literal (Spelling.ofInt v) .int (.int token v)), s) := fun _ _ => eval_of_push rfl
  refine ⟨?_, Word.opposite (Spelling.ofInt v), Word.readWord?_opposite hneg, ?_, ?_, ?_⟩
  · intro levels op s hop
    refine ⟨.literal (Spelling.ofInt (Decimal.wrapWord (-v))) .int (.unary op (.int token v)), ?_, ?_⟩
    · change unary _ op (.int token v) _ s = _
      unfold unary
      simp only [hop, Operand.ofLiteral?, beq_self_eq_true, if_true]
    · change Decimal.readWord? (Spelling.ofInt (Decimal.wrapWord (-v))) = _
      rw [wrapWord_neg hopposite]
      exact Word.readWord?_ofInt hneg
  · exact fun levels s t => ⟨_, hliteral levels s, negate_literal⟩
  · intro levels left op s s' hop h
    obtain ⟨l, t, hl, h⟩ := bind_eq_ok.mp h
    obtain ⟨r, t', hr, h⟩ := bind_eq_ok.mp h
    cases (hliteral levels t).symm.trans hr
    obtain ⟨result, u, hbinary, h⟩ := bind_eq_ok.mp h
    rw [hop] at hbinary
    have hout := out_of_minus hbinary
    cases h
    exact ⟨l, t, result.raw, hl, hout⟩
  · intro levels target op s s' hkind hop h
    obtain ⟨given, s₁, hgiven, h⟩ := bind_eq_ok.mp h
    cases (hliteral levels s).symm.trans hgiven
    obtain ⟨place, t, hplace, h⟩ := bind_eq_ok.mp h
    obtain ⟨_, t', hconst, h⟩ := bind_eq_ok.mp h
    cases checkConst_state hconst
    have hcompound : (op.kind == .op .assign) = false := by
      rw [hkind]
      rfl
    have hword : compoundWord op = "-" := by
      unfold compoundWord
      rw [hop]
      rfl
    rw [hcompound, hword] at h
    obtain ⟨current, u, hcurrent, h⟩ := bind_eq_ok.mp h
    obtain ⟨result, u', hresult, h⟩ := bind_eq_ok.mp h
    obtain ⟨x, y, hx, hy, hout⟩ := stored_of_settle h
    exact ⟨place, t, current, u, result, x, y, hplace, hcurrent, hx.trans (out_of_minus hresult), hy, hout⟩

/-- The greatest number of 64 bits, as a literal. -/
def greatestToken : Token := { kind := .int, literal := "9223372036854775807", pos := default }

theorem opposite_folded_of_greatestToken :
    Decimal.readWord? greatestToken.literal = some 9223372036854775807 ∧
      (∀ levels op s, op.kind = .op .minus → ∃ o,
        visit (levels + 1) (.unary op (.int greatestToken 9223372036854775807)) s = push o s ∧
          Decimal.readWord? o.raw = some (-9223372036854775807)) ∧
      ∃ w, Decimal.readWord? w = some (-9223372036854775807) ∧
        ∀ levels s t, ∃ o, eval (visit (levels + 1)) (.int greatestToken 9223372036854775807) s = (.ok o, s) ∧
          negate o t = (.ok w, t) := by
  have hread : Decimal.readWord? greatestToken.literal = some 9223372036854775807 := by decide
  obtain ⟨hunary, w, hw, hnegate, -⟩ := opposite_folded hread (by decide)
  exact ⟨hread, hunary, w, hw, hnegate⟩

/-- A program that gives a variable the value of an expression. -/
def valueSource (value : String) : Source := Source.ofString ("var x = 1\nvar y = " ++ value ++ "\n")

/-- The least number is written as a literal, and its opposite comes out as the number itself behind a minus
and as no number of 64 bits in a subtraction. -/
theorem least_opposite_of_valueSource :
    Decimal.readWord? "-9223372036854775808" = some (-9223372036854775808) ∧
      Decimal.readInt? "-9223372036854775808" ≠ some 9223372036854775808 ∧
      Decimal.readWord? "9223372036854775808" = none ∧
      (∃ code, compileSource {} {} (valueSource "- -9223372036854775808") "main.kite" = .ok code ∧
        ⟨.put, ["-9223372036854775808", "y_1"]⟩ ∈ code.instructions) ∧
      ∃ code, compileSource {} {} (valueSource "x - -9223372036854775808") "main.kite" = .ok code ∧
        ⟨.add, ["x_0", "9223372036854775808", "%t0"]⟩ ∈ code.instructions := by
  have hunary : (compileSource {} {} (valueSource "- -9223372036854775808") "main.kite").toOption.any
      (fun code => code.instructions.contains ⟨.put, ["-9223372036854775808", "y_1"]⟩) = true := by
    rw [compileSource_named {} Registry.names_standard, valueSource, Source.ofString_parts]
    decide +kernel
  have hminus : (compileSource {} {} (valueSource "x - -9223372036854775808") "main.kite").toOption.any
      (fun code => code.instructions.contains ⟨.add, ["x_0", "9223372036854775808", "%t0"]⟩) = true := by
    rw [compileSource_named {} Registry.names_standard, valueSource, Source.ofString_parts]
    decide +kernel
  obtain ⟨code, hcode, hput⟩ := exists_ok_of_any hunary
  obtain ⟨code', hcode', hadd⟩ := exists_ok_of_any hminus
  refine ⟨by decide, by decide, by decide, ⟨code, hcode, ?_⟩, code', hcode', ?_⟩
  · exact List.contains_iff_mem.mp hput
  · exact List.contains_iff_mem.mp hadd

end Frontend
