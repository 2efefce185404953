import Mathlib.Data.List.TakeWhile
import Skylight.Iodev.Acpi
import Skylight.Laws.Paging.Reload

/-!
# The tables that are found

`acpi_rsdt_get` and `acpi_xsdt_get` count the entries of their table alike, by the size of a
pointer of the kernel. The entries of an RSDT are half as long, so the second half of its tables
is not there for `acpi_get_table`.

`acpiGetTable_finds_iff` is about every table of tables with fewer than 65536 entries, every
signature and every index: what is answered is the table of that number among those with the
signature, or null if there are no more, exactly if that table is not in the part that the count
leaves out. Null entries, which end the search, are part of the condition.
-/

namespace Skylight.Acpi

open Skylight.Paging (Addr pagingVirtualOffset Canonical)

/-- Where the table of tables is: the XSDT if there is one. -/
def rootTable (mem : Bytes) (acpiRsdp : Addr) : Addr :=
  (if rsdpXsdt mem acpiRsdp ≠ 0 then rsdpXsdt mem acpiRsdp
    else (rsdpRsdt mem acpiRsdp).setWidth 64) + pagingVirtualOffset

/-- The tables an RSDT lists. -/
def rsdtTables (mem : Bytes) (header : Addr) : List Addr :=
  (List.range (((sdtLength mem header).toNat - 36) / 4)).map fun i =>
    (read32 mem (header + sdtHeaderSize + BitVec.ofNat 64 (4 * i))).setWidth 64 +
      pagingVirtualOffset

/-- The tables an XSDT lists. -/
def xsdtTables (mem : Bytes) (header : Addr) : List Addr :=
  (List.range (((sdtLength mem header).toNat - 36) / 8)).map fun i =>
    read64 mem (header + sdtHeaderSize + BitVec.ofNat 64 (8 * i)) + pagingVirtualOffset

/-- All tables that are listed. -/
def listed (mem : Bytes) (acpiRsdp : Addr) : List Addr :=
  if rsdpXsdt mem acpiRsdp ≠ 0 then xsdtTables mem (rootTable mem acpiRsdp)
  else rsdtTables mem (rootTable mem acpiRsdp)

/-- The number of entries the accessors take the table to have. -/
def counted (mem : Bytes) (acpiRsdp : Addr) : Nat :=
  ((sdtLength mem (rootTable mem acpiRsdp)).toNat - 36) / 8

/-- The tables the accessor answers before it answers null. -/
def reached (mem : Bytes) (acpiRsdp : Addr) : List Addr :=
  ((listed mem acpiRsdp).take (counted mem acpiRsdp)).takeWhile (· ≠ 0)

/-- The tables with the signature. -/
def matching (mem : Bytes) (signature : List (BitVec 8)) (tables : List Addr) : List Addr :=
  tables.filter (sdtSignature mem · = signature)

/-- The answer is the table number `k` of those with the signature, and null if there are no more
than `k`. -/
structure Finds (mem : Bytes) (signature : List (BitVec 8)) (k : Nat) (tables : List Addr)
    (answer : Addr) : Prop where
  table : answer = ((matching mem signature tables)[k]?).getD 0
  null : answer = 0 ↔ (matching mem signature tables).length ≤ k

/-- A pointer of the firmware to a table of fewer than 65536 tables. -/
structure Lists (mem : Bytes) (acpiRsdp : Addr) : Prop where
  canonical : Canonical acpiRsdp
  header : 36 ≤ (sdtLength mem (rootTable mem acpiRsdp)).toNat
  few : (listed mem acpiRsdp).length < 65536

section
variable {mem mem' : Bytes} {acpiRsdp a : Addr} {signature : List (BitVec 8)}
  {index i tableOccurence : BitVec 16} {get : BitVec 16 → Addr} {hs tables : List Addr}
  {fuel k : Nat}

/-! ### The search -/

/-- What the search answers does not depend on the fuel. -/
theorem getTableLoop_mono {fuel' : Nat} {answer : Addr} (le : fuel ≤ fuel')
    (run : getTableLoop mem get signature index fuel i tableOccurence = some answer) :
    getTableLoop mem get signature index fuel' i tableOccurence = some answer := by
  induction fuel generalizing fuel' i tableOccurence with
  | zero => cases run
  | succ fuel ih =>
    obtain ⟨fuel', rfl⟩ := Nat.exists_eq_add_of_le' (Nat.le_trans (Nat.le_add_left 1 fuel) le)
    unfold getTableLoop at run ⊢
    dsimp only at run ⊢
    split_ifs at run ⊢
    · exact run
    · exact run
    · exact ih (Nat.le_of_succ_le_succ le) run
    · exact ih (Nat.le_of_succ_le_succ le) run

/-- What `acpi_get_table` answers does not depend on the fuel. -/
theorem acpiGetTable_mono {fuel' : Nat} {answer : Addr} (le : fuel ≤ fuel')
    (run : acpiGetTable mem acpiRsdp fuel signature index = some answer) :
    acpiGetTable mem acpiRsdp fuel' signature index = some answer := by
  unfold acpiGetTable at run ⊢
  split_ifs at run ⊢
  · exact run
  · exact run
  · exact getTableLoop_mono le run

/-- The search goes through the list up to the first null. -/
theorem getTableLoop_eq (same : ∀ i : BitVec 16, get i = (hs[i.toNat]?).getD 0)
    (few : hs.length < 65536) (le : tableOccurence ≤ index)
    (enough : hs.length - i.toNat < fuel) :
    getTableLoop mem get signature index fuel i tableOccurence =
      some (((matching mem signature ((hs.drop i.toNat).takeWhile (· ≠ 0)))[index.toNat -
        tableOccurence.toNat]?).getD 0) := by
  -- One round for each entry, until one is null or the entries are over.
  induction fuel generalizing i tableOccurence with
  | zero => cases enough
  | succ fuel ih =>
    rw [getTableLoop]
    by_cases inside : i.toNat < hs.length
    · have head : get i = hs[i.toNat] := by
        rw [same, List.getElem?_eq_getElem inside, Option.getD_some]
      have next : (i + 1).toNat = i.toNat + 1 := by
        rw [BitVec.toNat_add]
        show (i.toNat + 1) % 65536 = _
        omega
      rw [List.drop_eq_getElem_cons inside, ← head]
      by_cases null : get i = 0
      · simp [null, matching]
      · have real (l : List Addr) : (get i :: l).takeWhile (· ≠ 0) = get i :: l.takeWhile (· ≠ 0) :=
          List.takeWhile_cons_of_pos (by simpa using null)
        simp only [null, ↓reduceIte]
        rw [real]
        by_cases match' : sdtSignature mem (get i) = signature
        · by_cases last : tableOccurence = index
          · simp [match', last, matching]
          · have less : tableOccurence.toNat < index.toNat :=
              Nat.lt_of_le_of_ne le fun eq => last (BitVec.eq_of_toNat_eq eq)
            have up : (tableOccurence + 1).toNat = tableOccurence.toNat + 1 := by
              rw [BitVec.toNat_add]
              have bound := index.isLt
              show (tableOccurence.toNat + 1) % 65536 = _
              omega
            simp only [match', last, and_false, ↓reduceIte]
            rw [ih (by rw [BitVec.le_def, up]; exact less) (by omega), next, up, matching, matching,
              List.filter_cons_of_pos (by simp [match']),
              show index.toNat - tableOccurence.toNat =
                index.toNat - (tableOccurence.toNat + 1) + 1 by omega,
              List.getElem?_cons_succ]
        · simp only [match', false_and, ↓reduceIte]
          rw [ih le (by omega), next, matching, matching,
            List.filter_cons_of_neg (by simp [match'])]
    · have null : get i = 0 := by
        rw [same, List.getElem?_eq_none (Nat.le_of_not_lt inside), Option.getD_none]
      rw [if_pos null, List.drop_eq_nil_of_le (Nat.le_of_not_lt inside)]
      rfl

/-- With the answer taken from a beginning of the list without nulls. -/
theorem finds_iff {seen rest : List Addr} (split : tables = seen ++ rest)
    (real : ∀ a ∈ seen, a ≠ 0) :
    Finds mem signature k tables (((matching mem signature seen)[k]?).getD 0) ↔
      (matching mem signature tables).length ≤ k ∨ k < (matching mem signature seen).length := by
  have both : matching mem signature tables =
      matching mem signature seen ++ matching mem signature rest := by
    rw [split]
    exact List.filter_append _ _
  by_cases lt : k < (matching mem signature seen).length
  · have value : ((matching mem signature seen)[k]?).getD 0 = (matching mem signature seen)[k] := by
      rw [List.getElem?_eq_getElem lt, Option.getD_some]
    have ne : (matching mem signature seen)[k] ≠ 0 :=
      real _ (List.mem_of_mem_filter (List.getElem_mem lt))
    refine iff_of_true ⟨?_, ?_⟩ (Or.inr lt)
    · rw [both, List.getElem?_append_left lt]
    · rw [value, both, List.length_append]
      exact iff_of_false ne (by omega)
  · have value : ((matching mem signature seen)[k]?).getD 0 = 0 := by
      rw [List.getElem?_eq_none (Nat.le_of_not_lt lt), Option.getD_none]
    rw [value, or_iff_left lt]
    constructor
    · intro finds
      exact finds.null.mp rfl
    · intro le
      refine ⟨?_, iff_of_true rfl le⟩
      rw [List.getElem?_eq_none le, Option.getD_none]

/-! ### The accessors -/

/-- The number of entries, by a size of eight bytes. -/
theorem sdtEntries_toNat {header : Addr} (whole : 36 ≤ (sdtLength mem header).toNat) :
    (sdtEntries mem header).toNat = ((sdtLength mem header).toNat - 36) / 8 := by
  have length := (sdtLength mem header).isLt
  rw [sdtEntries, BitVec.toNat_udiv, BitVec.toNat_sub, BitVec.toNat_setWidth]
  show (2 ^ 64 - 36 + (sdtLength mem header).toNat % 2 ^ 64) % 2 ^ 64 / 8 = _
  omega

/-- The bound of the accessors. -/
theorem index_ge_iff {header : Addr} (whole : 36 ≤ (sdtLength mem header).toNat) :
    i.setWidth 64 ≥ sdtEntries mem header ↔ ((sdtLength mem header).toNat - 36) / 8 ≤ i.toNat := by
  have small := i.isLt
  rw [ge_iff_le, BitVec.le_def, sdtEntries_toNat whole, BitVec.toNat_setWidth,
    Nat.mod_eq_of_lt (by omega)]

/-- The address of an entry, in another order. -/
theorem entry_address (b c d x : Addr) : b + c + d + x = b + d + c + x := by
  rw [BitVec.add_assoc b, BitVec.add_comm c, ← BitVec.add_assoc]

/-- An index times a size. -/
theorem index_mul (n : Nat) :
    BitVec.ofNat 64 n * i.setWidth 64 = BitVec.ofNat 64 (n * i.toNat) := by
  have bound := i.isLt
  apply BitVec.eq_of_toNat_eq
  rw [BitVec.toNat_mul, BitVec.toNat_setWidth, BitVec.toNat_ofNat, BitVec.toNat_ofNat,
    Nat.mod_eq_of_lt (show i.toNat < 2 ^ 64 by omega), Nat.mod_mul_mod]

/-- An RSDT, entry by entry. -/
theorem acpiRsdtGet_eq (none : rsdpXsdt mem acpiRsdp = 0)
    (whole : 36 ≤ (sdtLength mem (rootTable mem acpiRsdp)).toNat) :
    acpiRsdtGet mem acpiRsdp i =
      (((listed mem acpiRsdp).take (counted mem acpiRsdp))[i.toNat]?).getD 0 := by
  have root : rootTable mem acpiRsdp =
      (rsdpRsdt mem acpiRsdp).setWidth 64 + pagingVirtualOffset := by
    rw [rootTable, if_neg (not_not.mpr none)]
  rw [acpiRsdtGet, ← root]
  by_cases behind : counted mem acpiRsdp ≤ i.toNat
  · simp only [(index_ge_iff whole).mpr behind, ↓reduceIte]
    rw [List.getElem?_eq_none, Option.getD_none]
    rw [List.length_take]
    omega
  · have inside : ¬ i.setWidth 64 ≥ sdtEntries mem (rootTable mem acpiRsdp) :=
      (index_ge_iff whole).not.mpr behind
    simp only [inside, ↓reduceIte]
    unfold counted at behind
    rw [List.getElem?_take_of_lt (by unfold counted; omega), listed, if_neg (not_not.mpr none),
      rsdtTables, List.getElem?_map, List.getElem?_range (by omega), Option.map_some,
      Option.getD_some, root, ← index_mul 4, entry_address]
    rfl

/-- An XSDT, entry by entry. -/
theorem acpiXsdtGet_eq (some : rsdpXsdt mem acpiRsdp ≠ 0)
    (whole : 36 ≤ (sdtLength mem (rootTable mem acpiRsdp)).toNat) :
    acpiXsdtGet mem acpiRsdp i =
      (((listed mem acpiRsdp).take (counted mem acpiRsdp))[i.toNat]?).getD 0 := by
  have root : rootTable mem acpiRsdp = rsdpXsdt mem acpiRsdp + pagingVirtualOffset := by
    rw [rootTable, if_pos some]
  rw [acpiXsdtGet, ← root]
  by_cases behind : counted mem acpiRsdp ≤ i.toNat
  · simp only [(index_ge_iff whole).mpr behind, ↓reduceIte]
    rw [List.getElem?_eq_none, Option.getD_none]
    rw [List.length_take]
    omega
  · have inside : ¬ i.setWidth 64 ≥ sdtEntries mem (rootTable mem acpiRsdp) :=
      (index_ge_iff whole).not.mpr behind
    simp only [inside, ↓reduceIte]
    unfold counted at behind
    rw [List.getElem?_take_of_lt (by unfold counted; omega), listed, if_pos some,
      xsdtTables, List.getElem?_map, List.getElem?_range (by omega), Option.map_some,
      Option.getD_some, root, ← index_mul 8, entry_address]
    rfl

/-- `acpi_get_table` answers as it should exactly if the table it is asked for is not listed, or
comes up before the accessor answers null. -/
theorem acpiGetTable_finds_iff (lists : Lists mem acpiRsdp) (four : signature.length = 4) :
    ∃ answer, acpiGetTable mem acpiRsdp 65536 signature index = some answer ∧
      (Finds mem signature index.toNat (listed mem acpiRsdp) answer ↔
        (matching mem signature (listed mem acpiRsdp)).length ≤ index.toNat ∨
        index.toNat < (matching mem signature (reached mem acpiRsdp)).length) := by
  have there : ¬ acpiRsdp - pagingVirtualOffset * rsdpSize = 0 := by
    intro zero
    have value := congrArg BitVec.toNat zero
    rw [BitVec.toNat_sub, show (pagingVirtualOffset * rsdpSize).toNat = 0xffee000000000000 from rfl,
      show (0 : Addr).toNat = 0 from rfl] at value
    have bound := acpiRsdp.isLt
    have outside := lists.canonical
    unfold Canonical at outside
    omega
  set hs := (listed mem acpiRsdp).take (counted mem acpiRsdp) with def_hs
  have few : hs.length < 65536 := by
    rw [def_hs, List.length_take]
    exact Nat.lt_of_le_of_lt (Nat.min_le_right _ _) lists.few
  have same : ∀ i : BitVec 16, (if rsdpXsdt mem acpiRsdp != 0 then acpiXsdtGet mem acpiRsdp
      else acpiRsdtGet mem acpiRsdp) i = (hs[i.toNat]?).getD 0 := by
    intro i
    by_cases xsdt : rsdpXsdt mem acpiRsdp = 0
    · rw [if_neg (by rw [xsdt]; decide), acpiRsdtGet_eq xsdt lists.header]
    · rw [if_pos (bne_iff_ne.mpr xsdt), acpiXsdtGet_eq xsdt lists.header]
  refine ⟨((matching mem signature (reached mem acpiRsdp))[index.toNat]?).getD 0, ?_, ?_⟩
  · rw [acpiGetTable, if_neg there, if_neg (not_not.mpr four)]
    exact @getTableLoop_eq mem signature index 0 0 _ hs 65536 same few
      (show (0 : BitVec 16).toNat ≤ index.toNat from Nat.zero_le _)
      (Nat.lt_of_le_of_lt (Nat.sub_le _ _) few)
  · have begins : reached mem acpiRsdp <+: listed mem acpiRsdp :=
      (List.takeWhile_prefix _).trans (List.take_prefix _ _)
    obtain ⟨rest, split⟩ := begins
    apply finds_iff split.symm
    intro a mem'
    have real := List.mem_takeWhile_imp mem'
    simpa using real

/-- An answer depends on the listed tables alone, and not on what lists them. -/
theorem Finds.same {answer answer' : Addr} (h : Finds mem signature k tables answer)
    (h' : Finds mem' signature k tables answer')
    (alike : ∀ a ∈ tables, sdtSignature mem a = sdtSignature mem' a) : answer = answer' := by
  have match' : matching mem signature tables = matching mem' signature tables := by
    apply List.filter_congr
    intro a mem''
    rw [alike a mem'']
  rw [h.table, h'.table, match']

end

/-! ### One table, listed in two ways -/

/-- Memory with a pointer of the firmware at `0x1000`, the RSDT or XSDT at `0x2000` and a table
`APIC` at `0x3000`. The root table has 8 bytes, or 4, for its one entry. -/
def oneTable (xsdt : Bool) : Bytes := fun a =>
  if a = 0x1011 ∧ !xsdt then 0x20 else if a = 0x1019 ∧ xsdt then 0x20
  else if a = 0xffff800000002004 then (if xsdt then 44 else 40)
  else if a = 0xffff800000002025 then 0x30
  else if a = 0xffff800000003000 then 0x41 else if a = 0xffff800000003001 then 0x50
  else if a = 0xffff800000003002 then 0x49 else if a = 0xffff800000003003 then 0x43
  else 0

/-- `APIC` -/
def apicSignature : List (BitVec 8) := [0x41, 0x50, 0x49, 0x43]

/-- It is listed either way. -/
theorem oneTable_lists (xsdt : Bool) : Lists (oneTable xsdt) 0x1000 ∧
    listed (oneTable xsdt) 0x1000 = [0xffff800000003000] := by
  have canonical : Canonical 0x1000 := by
    unfold Canonical
    decide
  cases xsdt with
  | false => exact ⟨⟨canonical, by decide, by decide⟩, by decide⟩
  | true => exact ⟨⟨canonical, by decide, by decide⟩, by decide⟩

/-- Through an XSDT the table is found. -/
theorem acpiGetTable_finds_one : ∃ answer,
    acpiGetTable (oneTable true) 0x1000 65536 apicSignature 0 = some answer ∧
      Finds (oneTable true) apicSignature 0 [0xffff800000003000] answer := by
  obtain ⟨lists, tables⟩ := oneTable_lists true
  obtain ⟨answer, run, finds⟩ := @acpiGetTable_finds_iff _ _ apicSignature 0 lists rfl
  rw [tables] at finds
  exact ⟨answer, run, finds.mpr (Or.inr (by decide))⟩

/-- Through an RSDT it is not. -/
theorem acpiGetTable_not_always_finds : ¬ ∀ (mem : Bytes) (acpiRsdp : Addr)
    (signature : List (BitVec 8)) (index : BitVec 16) (answer : Addr), Lists mem acpiRsdp →
    signature.length = 4 → acpiGetTable mem acpiRsdp 65536 signature index = some answer →
    Finds mem signature index.toNat (listed mem acpiRsdp) answer := by
  intro all
  obtain ⟨lists, tables⟩ := oneTable_lists false
  have run : acpiGetTable (oneTable false) 0x1000 65536 apicSignature 0 = some 0 := by
    rw [acpiGetTable, if_neg (by decide), if_neg (by decide), show 65536 = 65535 + 1 from rfl,
      getTableLoop]
    exact if_pos (by decide)
  have finds := all _ _ apicSignature 0 0 lists rfl run
  rw [tables] at finds
  exact absurd finds.table (by decide)

end Skylight.Acpi
