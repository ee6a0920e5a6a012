import LuaScript.Hex

/-!
# The fast dumper

`lib/smart_hex_dump.lua`: the bracketed dump of `hex.smart_dump`, written by an automaton that
reads one byte at a time.  The automaton takes the bytes below 32 for control bytes, so it agrees
with the plain dumper except on DEL; both are undone by `hex.smart_pack` on the same texts.
-/

namespace LuaScript

open Fallible Scan Hex

namespace SmartHexDump

/-- The loop body of `smart_dump_fast`: the dump so far, and whether a run is open. -/
def smartDumpFastStep (state : Bytes × Nat) (_ : Nat) (c : Byte) : Lua (Bytes × Nat) :=
  let (dump, mode) := state
  if mode = 0 then
    if c < 32 then .ok (dump ++ bytes "<" ++ strFormat [.X02 c.toNat], 1)
    else (fun text => (dump ++ text, mode)) <$> strChar c.toNat
  else
    if c < 32 then .ok (dump ++ strFormat [.X02 c.toNat], mode)
    else (fun text => (dump ++ bytes ">" ++ text, 0)) <$> strChar c.toNat

/-- The end of input closes an open run. -/
def flush (state : Bytes × Nat) : Bytes :=
  if state.2 = 1 then state.1 ++ bytes ">" else state.1

/-- `smart_dump_fast` -/
def smartDumpFast (v : Bytes) : Lua Bytes := flush <$> forBytes v smartDumpFastStep ([], 0)

/-- The control bytes of the automaton. -/
def belowSpace (c : Byte) : Bool := c < 32

/-! ## The automaton and the runs -/

private theorem strFormat_X02 (c : Byte) : strFormat [.X02 c.toNat] = digits [c] := by
  simp [strFormat, FormatItem.add_X02]

private theorem strChar_byte (c : Byte) : strChar c.toNat = .ok [c] := by
  rw [strChar_of_lt c.toNat_lt, UInt8.ofNat_toNat]

theorem step_hidden {c : Byte} (hidden : belowSpace c = true) (text : Bytes) (i : Nat) :
    smartDumpFastStep (text, 0) i c = .ok (text ++ bytes "<" ++ digits [c], 1) ∧
      smartDumpFastStep (text, 1) i c = .ok (text ++ digits [c], 1) := by
  have control : c < 32 := by simpa [belowSpace] using hidden
  simp [smartDumpFastStep, control, strFormat_X02]

theorem step_visible {c : Byte} (visible : belowSpace c = false) (text : Bytes) (i : Nat) :
    smartDumpFastStep (text, 0) i c = .ok (text ++ [c], 0) ∧
      smartDumpFastStep (text, 1) i c = .ok (text ++ bytes ">" ++ [c], 0) := by
  have printable : ¬c < 32 := by simpa [belowSpace] using visible
  simp [smartDumpFastStep, printable, strChar_byte]

/-- Between runs the automaton still has to write the escaped rest; inside a run it still has to
write the rest of the run, the bracket that closes it, and the escaped rest. -/
private theorem run_eq (v : Bytes) (k : Nat) (text : Bytes) :
    flush <$> (v.zipIdx k).foldlM (fun state visit => smartDumpFastStep state visit.2 visit.1)
        (text, 0) =
      .ok (text ++ hexBrackets.escape belowSpace digits v) ∧
    flush <$> (v.zipIdx k).foldlM (fun state visit => smartDumpFastStep state visit.2 visit.1)
        (text, 1) =
      .ok (text ++ digits (v.takeWhile belowSpace) ++ bytes ">" ++
        hexBrackets.escape belowSpace digits (v.dropWhile belowSpace)) := by
  induction v generalizing k text with
  | nil => simp [flush, pure, Except.pure, Brackets.escape]
  | cons c v induction =>
      rw [List.zipIdx_cons, List.foldlM_cons, List.foldlM_cons]
      cases hidden : belowSpace c with
      | true =>
          obtain ⟨opens, continues⟩ := step_hidden hidden text k
          rw [opens, continues, ok_bind, ok_bind, (induction _ _).2, (induction _ _).2,
            Brackets.escape_hidden hidden, List.takeWhile_cons_of_pos hidden,
            List.dropWhile_cons_of_pos hidden]
          simp [hexBrackets, bytes]
      | false =>
          obtain ⟨copies, closes⟩ := step_visible hidden text k
          rw [copies, closes, ok_bind, ok_bind, (induction _ _).1, (induction _ _).1,
            List.takeWhile_cons_of_neg (by simp [hidden]),
            List.dropWhile_cons_of_neg (by simp [hidden]), Brackets.escape_visible hidden]
          simp

/-- `smart_dump_fast` writes every maximal run of bytes below 32 in brackets. -/
theorem smartDumpFast_eq (v : Bytes) :
    smartDumpFast v = .ok (hexBrackets.escape belowSpace digits v) := by
  rw [smartDumpFast, forBytes_eq, (run_eq v 1 []).1, List.nil_append]

/-! ## The two dumpers -/

theorem iscntrl_of_belowSpace (c : Byte) (below : belowSpace c = true) : iscntrl c = true := by
  simp_all [belowSpace, iscntrl]

/-- DEL is the one control byte that is not below 32. -/
theorem iscntrl_eq_belowSpace (c : Byte) (other : c ≠ 127) : iscntrl c = belowSpace c := by
  simp [belowSpace, iscntrl, other]

end SmartHexDump

end LuaScript
