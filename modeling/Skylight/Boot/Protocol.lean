/-!
# The boot protocol's memory map

The map the boot stage hands to the memory manager (`boot/protocol.h`): entries of a
base, a length and a signal, all 64-bit words. The signal is a word and not an
enumeration, because the manager reads whatever the copied map holds and gives every
unknown signal a meaning of its own.
-/

namespace Skylight

/-- `MEMORY_MAP_FREE` -/
def memoryMapFree : Nat := 0x00
/-- `MEMORY_MAP_BUSY` -/
def memoryMapBusy : Nat := 0x01
/-- `MEMORY_MAP_MMIO` -/
def memoryMapMmio : Nat := 0x02
/-- `MEMORY_MAP_NOUSE` -/
def memoryMapNouse : Nat := 0x03

/-- `memory_map_entry_t` -/
structure MemoryMapEntry where
  base : Nat
  length : Nat
  signal : Nat
  deriving DecidableEq, Repr

/-- The first address past an entry, as an integer and not as a word. -/
def MemoryMapEntry.fin (e : MemoryMapEntry) : Nat := e.base + e.length

/-- `MEGABYTE` -/
def megabyte : Nat := 1024 * 1024

/-- `PAGING_PAGE_SIZE` -/
def pageSize : Nat := 0x1000

end Skylight
