import Skylight.Mem.Paging.Tables

/-!
# Descriptors bit by bit

A descriptor holds an address, in the bits of `addressMask`, and flags, in the low twelve.
Descriptors are only ever changed by `|=`, so what a change keeps is said with `Within`:
every bit of the first is a bit of the second. Then what each of the accessors makes of the
two parts is known, and no later proof looks at a bit.
-/

namespace Skylight.Paging

variable {a b c e f m n p : Desc}

/-- Every bit of `a` is a bit of `b`. -/
def Within (a b : Desc) : Prop := a &&& b = a

/-- Every descriptor has its own bits. -/
theorem Within.refl (a : Desc) : Within a a := BitVec.and_self

/-- Bits that are kept twice are kept. -/
theorem Within.trans (hab : Within a b) (hbc : Within b c) : Within a c := by
  show a &&& c = a
  rw [← hab, BitVec.and_assoc, hbc]

/-- `|=` keeps what was there. -/
theorem within_or_left (a b : Desc) : Within a (a ||| b) := by
  show a &&& (a ||| b) = a
  ext i hi
  simp only [BitVec.getElem_and, BitVec.getElem_or]
  cases a[i] <;> simp

/-- And adds what is given. -/
theorem within_or_right (a b : Desc) : Within b (a ||| b) := by
  rw [BitVec.or_comm]
  exact within_or_left b a

/-- Nothing is in everything. -/
theorem zero_within (a : Desc) : Within 0 a := BitVec.zero_and

/-- A flag that is set stays set where bits are only added. -/
theorem Within.getFlag (h : Within a b) (set : pagingDescGetFlag a m = true) :
    pagingDescGetFlag b m = true := by
  rw [pagingDescGetFlag, bne_iff_ne] at set ⊢
  intro clear
  apply set
  rw [← h, BitVec.and_assoc, clear]
  exact BitVec.and_zero

/-- Flags: nothing but the low twelve bits. -/
def IsFlags (f : Desc) : Prop := f &&& 0x0fff = f

instance (f : Desc) : Decidable (IsFlags f) := inferInstanceAs (Decidable (_ = _))

/-- A page-aligned address below `2 ^ 52`: all its bits fit in a descriptor. -/
def IsFrame (p : Addr) : Prop := p &&& addressMask = p

instance (p : Addr) : Decidable (IsFrame p) := inferInstanceAs (Decidable (_ = _))

/-- The flags of a descriptor. -/
def flagsOf (e : Desc) : Desc := e &&& 0x0fff

/-- `flags &= 0x0fff`, at the width of a descriptor. -/
abbrev wide (flags : BitVec 16) : Desc := (flags &&& 0x0fff).setWidth 64

/-- The flags that a call is given. -/
theorem isFlags_wide (flags : BitVec 16) : IsFlags (wide flags) := by
  have same : wide flags = flags.setWidth 64 &&& 0x0fff := BitVec.setWidth_and
  show wide flags &&& 0x0fff = wide flags
  rw [same, BitVec.and_assoc, BitVec.and_self]

/-- The flags of a descriptor. -/
theorem isFlags_flagsOf (e : Desc) : IsFlags (flagsOf e) := by
  show e &&& 0x0fff &&& 0x0fff = e &&& 0x0fff
  rw [BitVec.and_assoc, BitVec.and_self]

/-- No bit of an address is a flag. -/
theorem mask_disjoint : (0x0fff : Desc) &&& addressMask = 0 := by decide

/-- Flags have no address. -/
theorem IsFlags.address (h : IsFlags f) : pagingDescGetAddress f = 0 := by
  show f &&& addressMask = 0
  rw [← h, BitVec.and_assoc, mask_disjoint]
  exact BitVec.and_zero

/-- A frame has no flags. -/
theorem IsFrame.flags (h : IsFrame p) : flagsOf p = 0 := by
  show p &&& 0x0fff = 0
  rw [← h, BitVec.and_assoc, BitVec.and_comm addressMask, mask_disjoint]
  exact BitVec.and_zero

/-- Addresses are joined bit by bit. -/
theorem getAddress_or (a b : Desc) :
    pagingDescGetAddress (a ||| b) = pagingDescGetAddress a ||| pagingDescGetAddress b :=
  BitVec.and_or_distrib_right

/-- What is in a descriptor is a frame. -/
theorem getAddress_frame (e : Desc) : IsFrame (pagingDescGetAddress e) := by
  show e &&& addressMask &&& addressMask = e &&& addressMask
  rw [BitVec.and_assoc, BitVec.and_self]

@[simp] theorem getAddress_zero : pagingDescGetAddress 0 = 0 := BitVec.zero_and

@[simp] theorem getFlag_zero (m : Desc) : pagingDescGetFlag 0 m = false := by
  simp [pagingDescGetFlag]

/-- Setting a flag adds its bits. -/
theorem setFlag_true (e m : Desc) : pagingDescSetFlag e m true = e ||| m := by
  show e &&& ~~~m ||| m = e ||| m
  ext i hi
  simp only [BitVec.getElem_and, BitVec.getElem_or, BitVec.getElem_not]
  cases e[i] <;> cases m[i] <;> rfl

/-- The node an upper descriptor leads to. -/
def child (e : Desc) : Option Addr :=
  if pagingDescGetFlag e flagPresent then some (pagingDescGetAddress e) else none

/-- A present descriptor leads to its address. -/
theorem child_of_present (h : pagingDescGetFlag e flagPresent = true) :
    child e = some (pagingDescGetAddress e) := if_pos h

/-- An absent one leads nowhere. -/
theorem child_of_absent (h : pagingDescGetFlag e flagPresent = false) : child e = none :=
  if_neg (by rw [h]; exact Bool.false_ne_true)

/-- And no other does. -/
theorem child_eq_none : child e = none ↔ pagingDescGetFlag e flagPresent = false := by
  cases h : pagingDescGetFlag e flagPresent with
  | false => exact iff_of_true (child_of_absent h) rfl
  | true => exact iff_of_false (by rw [child_of_present h]; nofun) nofun

@[simp] theorem child_zero : child 0 = none := child_of_absent (getFlag_zero _)

/-- More flags on a present descriptor lead where it led. -/
theorem child_or (hf : IsFlags f) (h : pagingDescGetFlag e flagPresent = true) :
    child (e ||| f) = child e := by
  rw [child_of_present h, child_of_present ((within_or_left e f).getFlag h), getAddress_or,
    hf.address]
  exact congrArg some BitVec.or_zero

/-- What `paging_map_page` makes of the descriptor of a new table. -/
abbrev tableEntry (e : Desc) (table : Addr) (f : Desc) : Desc :=
  pagingDescSetFlag (pagingDescSetAddress e table) flagPresent true ||| f

/-- The three `|=` of the source, in one. -/
theorem tableEntry_eq (e : Desc) (table : Addr) (f : Desc) :
    tableEntry e table f = e ||| (table &&& addressMask) ||| flagPresent ||| f := by
  rw [tableEntry, setFlag_true]
  rfl

/-- What was in the descriptor stays. -/
theorem within_tableEntry (e : Desc) (table : Addr) (f : Desc) :
    Within e (tableEntry e table f) := by
  rw [tableEntry_eq, BitVec.or_assoc, BitVec.or_assoc]
  exact within_or_left _ _

/-- The flags of the page are added. -/
theorem flags_within_tableEntry (e : Desc) (table : Addr) (f : Desc) :
    Within f (tableEntry e table f) := within_or_right _ _

/-- A descriptor without address bits leads to the table it is given. -/
theorem child_tableEntry (clear : pagingDescGetAddress e = 0) (hn : IsFrame n)
    (hf : IsFlags f) : child (tableEntry e n f) = some n := by
  have present : pagingDescGetFlag (tableEntry e n f) flagPresent = true := by
    have set : pagingDescGetFlag flagPresent flagPresent = true := by decide
    rw [tableEntry_eq, BitVec.or_assoc]
    exact ((within_or_left _ _).trans (within_or_right _ _)).getFlag set
  have flag : pagingDescGetAddress flagPresent = 0 := by decide
  have frame : pagingDescGetAddress (n &&& addressMask) = n := by
    rw [hn]
    exact hn
  rw [child_of_present present, tableEntry_eq, getAddress_or, getAddress_or, getAddress_or,
    clear, frame, flag, hf.address]
  simp

/-- What `paging_map_page` makes of the descriptor of a page. -/
abbrev leafEntry (e : Desc) (phys : Addr) (f : Desc) : Desc :=
  pagingDescSetFlags (pagingDescSetFlag (pagingDescSetAddress e phys) flagPresent true) f

/-- The address of the new page joins the bits of the old one. -/
theorem getAddress_leafEntry (hf : IsFlags f) :
    pagingDescGetAddress (leafEntry e p f)
      = pagingDescGetAddress e ||| pagingDescGetAddress p := by
  have keep (x : Desc) : pagingDescGetAddress (x &&& ~~~0x0fff) = pagingDescGetAddress x := by
    have all : ~~~(0x0fff : Desc) &&& addressMask = addressMask := by decide
    show x &&& ~~~0x0fff &&& addressMask = x &&& addressMask
    rw [BitVec.and_assoc, all]
  have flag : pagingDescGetAddress flagPresent = 0 := by decide
  have same : pagingDescGetAddress (p &&& addressMask) = pagingDescGetAddress p :=
    getAddress_frame p
  rw [leafEntry, pagingDescSetFlags, setFlag_true, pagingDescSetAddress, getAddress_or, keep,
    getAddress_or, getAddress_or, flag, hf.address, same]
  simp

/-- The flags of the new page are the flags it was given. -/
theorem flagsOf_leafEntry (hf : IsFlags f) : flagsOf (leafEntry e p f) = f := by
  have clear (x : Desc) : flagsOf (x &&& ~~~0x0fff) = 0 := by
    have none : ~~~(0x0fff : Desc) &&& 0x0fff = 0 := by decide
    show x &&& ~~~0x0fff &&& 0x0fff = 0
    rw [BitVec.and_assoc, none]
    exact BitVec.and_zero
  have split (x y : Desc) : flagsOf (x ||| y) = flagsOf x ||| flagsOf y :=
    BitVec.and_or_distrib_right
  rw [leafEntry, pagingDescSetFlags, split, clear, show flagsOf f = f from hf]
  exact BitVec.zero_or

/-- A flag of a descriptor is one of its flags. -/
theorem getFlag_flagsOf (hm : IsFlags m) :
    pagingDescGetFlag (flagsOf e) m = pagingDescGetFlag e m := by
  rw [pagingDescGetFlag, pagingDescGetFlag, flagsOf, BitVec.and_assoc,
    BitVec.and_comm (0x0fff : Desc), hm]

end Skylight.Paging
