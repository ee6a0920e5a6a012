import Mathlib.Tactic.Common

/-!
# Colours

The byte `marked` of a collectable object, with the macros of `lgc.h` on it.  An object is white,
gray or black; there are two whites, and the objects with the white of the last collection are dead.
-/

namespace LuaScript.GC

/-- `lu_byte marked` -/
abbrev Marked := BitVec 8

namespace Marked

/-- `WHITEBITS` -/
def whitebits : Marked := 0b11#8

/-- `bitmask(BLACKBIT)` -/
def blackbit : Marked := 0b100#8

/-- `bitmask(FINALIZEDBIT)` -/
def finalizedbit : Marked := 0b1000#8

/-- `KEYWEAK` -/
def keyweak : Marked := 0b1000#8

/-- `VALUEWEAK` -/
def valueweak : Marked := 0b10000#8

/-- `bitmask(FIXEDBIT)` -/
def fixedbit : Marked := 0b100000#8

/-- `maskmarks` -/
def maskmarks : Marked := ~~~(blackbit ||| whitebits)

variable (currentwhite m : Marked)

def iswhite : Bool := m &&& whitebits != 0

def isblack : Bool := m &&& blackbit != 0

def isgray : Bool := !isblack m && !iswhite m

def otherwhite : Marked := currentwhite ^^^ whitebits

def isdead : Bool := m &&& otherwhite currentwhite &&& whitebits != 0

/-- `luaC_white` -/
def luaCWhite : Marked := currentwhite &&& whitebits

def makewhite : Marked := m &&& maskmarks ||| luaCWhite currentwhite

/-- `white2gray` and `stringmark` -/
def white2gray : Marked := m &&& ~~~whitebits

def black2gray : Marked := m &&& ~~~blackbit

def gray2black : Marked := m ||| blackbit

def changewhite : Marked := m ^^^ whitebits

def isfinalized : Bool := m &&& finalizedbit != 0

def markfinalized : Marked := m ||| finalizedbit

/-- The bits of weakness, as `traversetable` writes them. -/
def setweak (weakkey weakvalue : Bool) : Marked :=
  m &&& ~~~(keyweak ||| valueweak) |||
    ((if weakkey then keyweak else 0) ||| if weakvalue then valueweak else 0)

/-- The condition under which `sweeplist` keeps an object. -/
def kept (deadmask : Marked) : Bool := (m ^^^ whitebits) &&& deadmask != 0

def isfixed : Bool := m &&& fixedbit != 0

/-- `currentwhite` between two collections: one of the whites, and the bit of fixed objects, so that
`sweeplist` keeps these. -/
def White : Prop := currentwhite = 0b100001#8 ∨ currentwhite = 0b100010#8

/-- At most one bit of colour is set. -/
def Proper : Prop := (m.isblack → m.iswhite = false) ∧ m &&& whitebits ≠ whitebits

instance : Decidable (Proper m) := inferInstanceAs (Decidable (_ ∧ _))

section

variable {currentwhite m : Marked}

@[simp] theorem iswhite_white2gray : (white2gray m).iswhite = false := by
  revert m
  decide

@[simp] theorem isblack_white2gray : (white2gray m).isblack = m.isblack := by
  revert m
  decide

@[simp] theorem iswhite_gray2black : (gray2black m).iswhite = m.iswhite := by
  revert m
  decide

@[simp] theorem isblack_gray2black : (gray2black m).isblack = true := by
  revert m
  decide

@[simp] theorem iswhite_black2gray : (black2gray m).iswhite = m.iswhite := by
  revert m
  decide

@[simp] theorem isblack_black2gray : (black2gray m).isblack = false := by
  revert m
  decide

theorem white2gray_eq_self : m.iswhite = false → white2gray m = m := by
  revert m
  decide

theorem iswhite_of_isdead (dead : isdead currentwhite m) : m.iswhite := by
  rw [isdead, bne_iff_ne] at dead
  rw [iswhite, bne_iff_ne]
  intro none
  rw [BitVec.and_assoc, BitVec.and_comm _ whitebits, ← BitVec.and_assoc, none] at dead
  simp at dead

@[simp] theorem iswhite_setweak (weakkey weakvalue : Bool) :
    (setweak m weakkey weakvalue).iswhite = m.iswhite := by
  cases weakkey <;> cases weakvalue <;> revert m <;> decide

@[simp] theorem isblack_setweak (weakkey weakvalue : Bool) :
    (setweak m weakkey weakvalue).isblack = m.isblack := by
  cases weakkey <;> cases weakvalue <;> revert m <;> decide

@[simp] theorem iswhite_markfinalized : (markfinalized m).iswhite = m.iswhite := by
  revert m
  decide

@[simp] theorem isblack_markfinalized : (markfinalized m).isblack = m.isblack := by
  revert m
  decide

@[simp] theorem isfixed_white2gray : (white2gray m).isfixed = m.isfixed := by
  revert m
  decide

@[simp] theorem isfixed_gray2black : (gray2black m).isfixed = m.isfixed := by
  revert m
  decide

@[simp] theorem isfixed_black2gray : (black2gray m).isfixed = m.isfixed := by
  revert m
  decide

@[simp] theorem isfixed_setweak (weakkey weakvalue : Bool) :
    (setweak m weakkey weakvalue).isfixed = m.isfixed := by
  cases weakkey <;> cases weakvalue <;> revert m <;> decide

@[simp] theorem isfixed_markfinalized : (markfinalized m).isfixed = m.isfixed := by
  revert m
  decide

theorem isfixed_changewhite : (changewhite m).isfixed = m.isfixed := by
  revert m
  decide

theorem iswhite_changewhite : Proper m → m.iswhite → (changewhite m).iswhite := by
  revert m
  decide

@[simp] theorem keyweak_black2gray : black2gray m &&& keyweak = m &&& keyweak := by
  revert m
  decide

@[simp] theorem valueweak_black2gray : black2gray m &&& valueweak = m &&& valueweak := by
  revert m
  decide

@[simp] theorem keyweak_setweak (weakkey weakvalue : Bool) :
    (setweak m weakkey weakvalue &&& keyweak != 0) = weakkey := by
  cases weakkey <;> cases weakvalue <;> revert m <;> decide

@[simp] theorem valueweak_setweak (weakkey weakvalue : Bool) :
    (setweak m weakkey weakvalue &&& valueweak != 0) = weakvalue := by
  cases weakkey <;> cases weakvalue <;> revert m <;> decide

theorem Proper.white2gray : Proper m → Proper m.white2gray := by
  revert m
  decide

theorem Proper.gray2black : Proper m → m.iswhite = false → Proper m.gray2black := by
  revert m
  decide

theorem Proper.black2gray : Proper m → Proper m.black2gray := by
  revert m
  decide

theorem Proper.markfinalized : Proper m → Proper m.markfinalized := by
  revert m
  decide

theorem Proper.setweak (weakkey weakvalue : Bool) :
    Proper m → Proper (m.setweak weakkey weakvalue) := by
  cases weakkey <;> cases weakvalue <;> revert m <;> decide

theorem Proper.changewhite : Proper m → m.iswhite → Proper m.changewhite := by
  revert m
  decide

theorem luaCWhite_eq : luaCWhite currentwhite = makewhite currentwhite 0 := by
  simp [makewhite]

section White

variable (white : White currentwhite)
include white

theorem White.otherwhite : White (otherwhite currentwhite) := by
  rcases white with rfl | rfl
  · exact .inr rfl
  · exact .inl rfl

theorem White.iswhite_makewhite : (makewhite currentwhite m).iswhite := by
  rcases white with rfl | rfl <;> revert m <;> decide

theorem White.isblack_makewhite : (makewhite currentwhite m).isblack = false := by
  rcases white with rfl | rfl <;> revert m <;> decide

theorem White.isdead_makewhite : isdead currentwhite (makewhite currentwhite m) = false := by
  rcases white with rfl | rfl <;> revert m <;> decide

theorem White.proper_makewhite : Proper (makewhite currentwhite m) := by
  rcases white with rfl | rfl <;> revert m <;> decide

theorem White.isfixed_makewhite : (makewhite currentwhite m).isfixed = m.isfixed := by
  rcases white with rfl | rfl <;> revert m <;> decide

theorem White.isdead_markfinalized :
    isdead currentwhite m.markfinalized = isdead currentwhite m := by
  rcases white with rfl | rfl <;> revert m <;> decide

theorem White.isdead_changewhite :
    Proper m → isdead currentwhite m → isdead currentwhite m.changewhite = false := by
  rcases white with rfl | rfl <;> revert m <;> decide

/-- After the white is flipped, exactly the objects with the old white are dead. -/
theorem White.isdead_otherwhite :
    Proper m → isdead currentwhite m = false →
      isdead (Marked.otherwhite currentwhite) m = m.iswhite := by
  rcases white with rfl | rfl <;> revert m <;> decide

/-- `sweeplist` frees the dead objects that are not fixed. -/
theorem White.kept_eq :
    Proper m → m.kept (Marked.otherwhite currentwhite) = (!isdead currentwhite m || m.isfixed) := by
  rcases white with rfl | rfl <;> revert m <;> decide

end White

theorem isdead_eq_false (gray : m.iswhite = false) : isdead currentwhite m = false := by
  by_contra dead
  rw [iswhite_of_isdead (eq_true_of_ne_false dead)] at gray
  cases gray

end

end Marked

end LuaScript.GC
