import Skylight.Boot.Limine
import Mathlib.Data.List.Basic

/-!
# The copied map in memory

`pmm_start` reads the map back from where `limine_reinterpret` wrote it, after the table of the
modules was written behind it. The pages of the map are counted without its header, so the table can
begin 8 or 16 bytes before the map ends.

`read_written` is the map as `pmm_start` reads it, with the last entry changed by the first
module where the table reaches it. Which maps those are is in `Laws.Boot.Tables`, and what it
does to the free memory in `Laws.Boot.Limine`.
-/

namespace Skylight.Limine

section
variable {es : List MemoryMapEntry} {ms : List BootModule} {w : Words} {a x i n : Nat}
  {e : MemoryMapEntry}

/-- Nothing below the entries is written. -/
theorem writeEntries_below (lt : x < a) : writeEntries es a w x = w x := by
  induction es generalizing a w with
  | nil => rfl
  | cons e es ih =>
    rw [writeEntries, ih (Nat.lt_add_right _ lt)]
    simp only [Words.set]
    rw [Function.update_of_ne (by omega), Function.update_of_ne (by omega),
      Function.update_of_ne (by omega)]

/-- Nor below the table. -/
theorem writeModules_below (lt : x < a) : writeModules ms a w x = w x := by
  induction ms generalizing a w with
  | nil => rfl
  | cons m ms ih =>
    rw [writeModules, ih (Nat.lt_add_right _ lt)]
    simp only [Words.set]
    rw [Function.update_of_ne (by omega), Function.update_of_ne (by omega),
      Function.update_of_ne (by omega), Function.update_of_ne (by omega)]

/-- The words of an entry that was written. -/
theorem writeEntries_at (mem : es[i]? = some e) :
    writeEntries es a w (a + entrySize * i) = e.base ∧
      writeEntries es a w (a + entrySize * i + 8) = e.length ∧
      writeEntries es a w (a + entrySize * i + 16) = e.signal := by
  induction es generalizing a w i with
  | nil => simp at mem
  | cons d es ih =>
    cases i with
    | zero =>
      obtain rfl : d = e := by simpa using mem
      rw [writeEntries, Nat.mul_zero, Nat.add_zero]
      simp only [entrySize]
      rw [writeEntries_below (by omega), writeEntries_below (by omega),
        writeEntries_below (by omega)]
      simp [Words.set]
    | succ i =>
      have here : a + entrySize * (i + 1) = a + entrySize + entrySize * i := by
        rw [Nat.mul_add, Nat.mul_one]
        omega
      rw [here, writeEntries]
      exact ih (by simpa using mem)

/-- The words that a table of modules begins with. -/
theorem writeModules_at {m : BootModule} :
    writeModules (m :: ms) a w a = m.virt ∧ writeModules (m :: ms) a w (a + 8) = m.phys := by
  rw [writeModules, moduleSize, writeModules_below (by omega), writeModules_below (by omega)]
  simp [Words.set]

/-- The entries that are read back. -/
theorem readEntries_getElem? : (readEntries w n a)[i]? =
    if i < n then some ⟨w (a + entrySize * i), w (a + entrySize * i + 8),
      w (a + entrySize * i + 16)⟩ else none := by
  induction n generalizing a i with
  | zero => simp [readEntries]
  | succ n ih =>
    cases i with
    | zero => simp [readEntries]
    | succ i =>
      have here : a + entrySize + entrySize * i = a + entrySize * (i + 1) := by
        rw [Nat.mul_add, Nat.mul_one]
        omega
      rw [readEntries, List.getElem?_cons_succ, ih, here]
      simp only [Nat.add_lt_add_iff_right]

/-- What the first module makes of the last of `n` entries. -/
def overwritten (n : Nat) : List BootModule → MemoryMapEntry → MemoryMapEntry
  | [], e => e
  | m :: _, e =>
    if entrySize * n % pageSize = 0 then ⟨e.base, m.virt, m.phys⟩
    else if entrySize * n % pageSize = 4088 then { e with signal := m.virt }
    else e

/-- The base of the last entry is not reached. -/
theorem overwritten_base : (overwritten n ms e).base = e.base := by
  cases ms with
  | nil => rfl
  | cons m ms =>
    rw [overwritten]
    split_ifs <;> rfl

/-- The pages of the entries, without those of the modules. -/
theorem mapPages_bounds (small : entrySize * n < 2 ^ 64) :
    entrySize * n ≤ (mapPages n - 2) * pageSize ∧
      (mapPages n - 2) * pageSize < entrySize * n + pageSize := by
  rw [mapPages, Word.mul_eq (by rwa [Nat.mul_comm]), Nat.mul_comm n, Nat.add_sub_cancel]
  simp only [pageSize]
  by_cases rest : entrySize * n % 4096 = 0
  · simp only [rest, ne_eq, not_true_eq_false, ↓reduceIte]
    omega
  · simp only [rest, ne_eq, not_false_eq_true, ↓reduceIte]
    omega

/-- A page boundary behind a multiple of 8 that is none itself, nor 8 bytes before one. -/
theorem behind_of_rest {a t : Nat} (whole : t % 4096 = 0) (eight : a % 8 = 0) (le : a ≤ t)
    (all : a % 4096 ≠ 0) (one : a % 4096 ≠ 4088) : a + 8 < t := by
  have parts := Nat.div_add_mod a 4096
  have same : a % 4096 % 8 = 0 := by rw [Nat.mod_mod_of_dvd a (by decide), eight]
  have less : a % 4096 < 4096 := Nat.mod_lt a (by decide)
  generalize a % 4096 = r at *
  generalize a / 4096 = p at *
  have short : r + 8 < 4096 := by omega
  have before : p < t / 4096 := by omega
  omega

/-- What the kernel reads of the memory map through the header that the boot code wrote: the entries
as they came, but for the last one, whose place the module table may have taken. -/
theorem read_written {c : Nat} (small : entrySize * es.length < 2 ^ 64) (some : 0 < es.length)
    (count : w c = es.length) (start : w (c + 8) = c + headerSize) :
    (Handover.mk (writeModules ms (c + (mapPages es.length - 2) * pageSize)
        (writeEntries es (c + headerSize) w)) c).map =
      es.modify (es.length - 1) (overwritten es.length ms) := by
  obtain ⟨le, lt⟩ := mapPages_bounds small
  generalize hn : es.length = n at *
  generalize ht : (mapPages n - 2) * pageSize = t at *
  have whole : t % pageSize = 0 := by rw [← ht, Nat.mul_mod_left]
  simp only [entrySize, pageSize, headerSize] at *
  have header : ∀ x < c + 16, writeModules ms (c + t) (writeEntries es (c + 16) w) x = w x := by
    intro x hx
    rw [writeModules_below (by omega), writeEntries_below hx]
  rw [Handover.map]
  simp only
  rw [header _ (by omega), header _ (by omega), count, start]
  apply List.ext_getElem?
  intro i
  rw [readEntries_getElem?, List.getElem?_modify]
  by_cases inside : i < n
  · obtain ⟨e, mem⟩ : ∃ e, es[i]? = .some e := ⟨es[i], List.getElem?_eq_getElem (by omega)⟩
    obtain ⟨base, length, signal⟩ := @writeEntries_at es w (c + 16) i e mem
    simp only [entrySize] at base length signal ⊢
    rw [if_pos inside, mem, Option.map_eq_map, Option.map_some]
    by_cases last : n - 1 = i
    · have reached : ∀ x, x < c + t → writeModules ms (c + t) (writeEntries es (c + 16) w) x =
          writeEntries es (c + 16) w x := fun x hx => writeModules_below hx
      rw [if_pos last, reached _ (by omega), base]
      cases ms with
      | nil =>
        simp only [writeModules, overwritten, length, signal]
      | cons m ms =>
        obtain ⟨virt, phys⟩ := @writeModules_at ms (writeEntries es (c + 16) w) (c + t) m
        rw [overwritten]
        by_cases all : entrySize * n % pageSize = 0
        · rw [if_pos all]
          simp only [entrySize, pageSize] at all
          have h₁ : c + 16 + 24 * i + 8 = c + t := by omega
          have h₂ : c + 16 + 24 * i + 16 = c + t + 8 := by omega
          rw [h₁, h₂, virt, phys]
        · rw [if_neg all]
          by_cases one : entrySize * n % pageSize = 4088
          · rw [if_pos one]
            simp only [entrySize, pageSize] at all one
            have h₂ : c + 16 + 24 * i + 16 = c + t := by omega
            rw [reached (c + 16 + 24 * i + 8) (by omega), length, h₂, virt]
          · rw [if_neg one]
            simp only [entrySize, pageSize] at all one
            -- both are multiples of 8, so the table begins at once, 8 bytes on, or behind it
            have far : 24 * n + 8 < t := behind_of_rest whole (by omega) le all one
            rw [reached (c + 16 + 24 * i + 8) (by omega), length,
              reached (c + 16 + 24 * i + 16) (by omega), signal]
    · rw [if_neg last, writeModules_below (by omega), writeModules_below (by omega),
        writeModules_below (by omega), base, length, signal]
  · rw [if_neg inside, List.getElem?_eq_none (by omega)]
    rfl

end

end Skylight.Limine
