import Tsl.Bits
import Tsl.Megaqueue.Segment

set_option autoImplicit false

/-! # Prefaulting a megaqueue

A creating `megaqueue_open` touches the first 512 MB of the queue, or all of it. It rounds the length
up twice and can come out two pages above the queue; `__megaqueue_prefault_range` takes a byte off and
rounds down. `prefault_inside` says that the pages it writes to are pages of the mapping all the same,
in the arithmetic of `size_t` and for every page size. -/

namespace Tsl

open Lib

/-- The length to prefault: `prefetch` in `megaqueue_open`. -/
def prefetchLength (pageSize queueSize : BitVec 64) : BitVec 64 :=
  let prefetch :=
    if queueSize > BitVec.ofNat 64 (megabytes 512) then BitVec.ofNat 64 (megabytes 512)
    else queueSize + pageSize - 1
  (prefetch + pageSize - 1) &&& ~~~(pageSize - 1)

/-- `page_count` in `__megaqueue_prefault_range`. -/
def prefaultPageCount (bytes pageSize : BitVec 64) : BitVec 64 :=
  ((bytes - 1) &&& ~~~(pageSize - 1)) / pageSize

/-- A `uint32_t` is written to the beginning of a page. `none` is a fault: of the memory from the base
    on, `mapped` bytes are there. -/
def touchPage (mapped : ℕ) (pageSize : BitVec 64) (mem : Bytes) (i : ℕ) : Option Bytes :=
  let offs := (BitVec.ofNat 64 i * pageSize).toNat
  if offs + 4 ≤ mapped then some (mem.store offs 4 0xdead) else none

/-- `__megaqueue_prefault_range`, with the memory behind a base that starts a page. -/
def helperMegaqueuePrefaultRange (mapped : ℕ) (bytes pageSize : BitVec 64) (mem : Bytes) :
    Option (AResult × Bytes) :=
  if bytes = 0 then some (aEBadargs, mem)
  else
    ((List.range (prefaultPageCount bytes pageSize).toNat).foldlM (touchPage mapped pageSize) mem).map
      (aOk, ·)

/-- The pages of a mapping of `queue_size` bytes, in bytes. -/
def mappedBytes (pageSize queueSize : BitVec 64) : ℕ :=
  (queueSize.toNat + pageSize.toNat - 1) / pageSize.toNat * pageSize.toNat

/-! ## What the two roundings come to -/

section Rounding

variable {p x : ℕ}

theorem rounded_up (hp : 0 < p) (hx : 0 < x) : (x + p - 1) / p = (x - 1) / p + 1 := by
  have hsplit : x + p - 1 = (x - 1) + p := by omega
  rw [hsplit, Nat.add_div_right _ hp]

theorem rounded_down (hp : 0 < p) (hx : 0 < x) : ((x + p - 1) / p * p - 1) / p = (x - 1) / p := by
  rw [rounded_up hp hx, Nat.add_mul, Nat.one_mul]
  generalize (x - 1) / p = m
  refine (Nat.div_eq_iff hp).2 ⟨?_, ?_⟩ <;> omega

end Rounding

section Words

variable {pageSize queueSize : BitVec 64}

/-- What `megaqueue_open` rounds up to the page size. -/
def prefetchBefore (pageSize queueSize : BitVec 64) : ℕ :=
  if queueSize.toNat > megabytes 512 then megabytes 512 else queueSize.toNat + pageSize.toNat - 1

theorem prefetchBefore_pos (hqueue : 1 ≤ queueSize.toNat) (hpage : 1 ≤ pageSize.toNat) :
    0 < prefetchBefore pageSize queueSize := by
  unfold prefetchBefore megabytes
  split <;> omega

theorem prefetchBefore_le (hhi : pageSize.toNat ≤ 2 ^ 29) :
    prefetchBefore pageSize queueSize ≤ 2 ^ 30 := by
  unfold prefetchBefore megabytes
  split <;> omega

/-- It ends before the last page of the mapping does. -/
theorem prefetchBefore_lt (hqueue : 1 ≤ queueSize.toNat) (hpage : 1 ≤ pageSize.toNat) :
    prefetchBefore pageSize queueSize - 1 ≤ queueSize.toNat + pageSize.toNat - 1 := by
  unfold prefetchBefore megabytes
  split <;> omega

theorem toNat_add_sub_one {x : BitVec 64} (hpage : 1 ≤ pageSize.toNat)
    (hlt : x.toNat + pageSize.toNat < 2 ^ 64) :
    (x + pageSize - 1).toNat = x.toNat + pageSize.toNat - 1 := by
  bv_omega

/-- None of the sums wraps. -/
theorem toNat_prefetchLength {k : ℕ} (hpow : pageSize.toNat = 2 ^ k)
    (hhi : pageSize.toNat ≤ 2 ^ 29) :
    (prefetchLength pageSize queueSize).toNat =
      (prefetchBefore pageSize queueSize + pageSize.toNat - 1) / pageSize.toNat * pageSize.toNat := by
  have hpage : 1 ≤ pageSize.toNat := hpow ▸ Nat.one_le_two_pow
  have hle : prefetchBefore pageSize queueSize ≤ 2 ^ 30 := prefetchBefore_le hhi
  have hlimit : (BitVec.ofNat 64 (megabytes 512)).toNat = megabytes 512 := rfl
  have hbefore : (if queueSize > BitVec.ofNat 64 (megabytes 512) then BitVec.ofNat 64 (megabytes 512)
      else queueSize + pageSize - 1).toNat = prefetchBefore pageSize queueSize := by
    simp only [prefetchBefore, gt_iff_lt, BitVec.lt_def, hlimit] at hle ⊢
    split
    · exact hlimit
    · next hsmall =>
      have hqueue : queueSize.toNat ≤ 2 ^ 29 := Nat.le_of_not_lt hsmall
      exact toNat_add_sub_one hpage (by omega)
  simp only [prefetchLength]
  rw [toNat_and_not_mask hpow, toNat_add_sub_one hpage (by omega), hbefore]

theorem toNat_prefaultPageCount {bytes : BitVec 64} {k : ℕ} (hpow : pageSize.toNat = 2 ^ k)
    (hbytes : 1 ≤ bytes.toNat) :
    (prefaultPageCount bytes pageSize).toNat = (bytes.toNat - 1) / pageSize.toNat := by
  have hpage : 0 < pageSize.toNat := hpow ▸ Nat.two_pow_pos k
  have hless : (bytes - 1).toNat = bytes.toNat - 1 := by
    rw [BitVec.toNat_sub_of_le (by simpa [BitVec.le_def] using hbytes)]
    rfl
  rw [prefaultPageCount, BitVec.toNat_udiv, toNat_and_not_mask hpow, hless,
    Nat.mul_div_cancel _ hpage]

theorem toNat_pageCount {k : ℕ} (hpow : pageSize.toNat = 2 ^ k) (hhi : pageSize.toNat ≤ 2 ^ 29)
    (hqueue : 1 ≤ queueSize.toNat) :
    (prefaultPageCount (prefetchLength pageSize queueSize) pageSize).toNat =
      (prefetchBefore pageSize queueSize - 1) / pageSize.toNat := by
  have hpage : 0 < pageSize.toNat := hpow ▸ Nat.two_pow_pos k
  have hpos : 0 < prefetchBefore pageSize queueSize := prefetchBefore_pos hqueue hpage
  have hlength : (prefetchLength pageSize queueSize).toNat = _ := toNat_prefetchLength hpow hhi
  have hbytes : 1 ≤ (prefetchLength pageSize queueSize).toNat := by
    rw [hlength, rounded_up hpage hpos, Nat.add_mul, Nat.one_mul]
    omega
  rw [toNat_prefaultPageCount hpow hbytes, hlength, rounded_down hpage hpos]

end Words

/-! ## The loop -/

theorem foldlM_touchPage {mapped : ℕ} {pageSize : BitVec 64} {pages : List ℕ}
    (hpages : ∀ i ∈ pages, i * pageSize.toNat < 2 ^ 64 ∧ i * pageSize.toNat + 4 ≤ mapped) :
    ∀ mem, pages.foldlM (touchPage mapped pageSize) mem =
      some (pages.foldl (fun mem i => mem.store (i * pageSize.toNat) 4 0xdead) mem) := by
  induction pages with
  | nil => exact fun mem => rfl
  | cons i pages ih =>
      intro mem
      obtain ⟨hwrap, hmapped⟩ := hpages i List.mem_cons_self
      have hoffs : (BitVec.ofNat 64 i * pageSize).toNat = i * pageSize.toNat := by
        rw [BitVec.toNat_mul, BitVec.toNat_ofNat, Nat.mod_mul_mod, Nat.mod_eq_of_lt hwrap]
      have htouch : touchPage mapped pageSize mem i =
          some (mem.store (i * pageSize.toNat) 4 0xdead) := by
        simp only [touchPage, hoffs, if_pos hmapped]
      rw [List.foldlM_cons, htouch, List.foldl_cons]
      exact ih (fun j hj => hpages j (List.mem_cons_of_mem _ hj)) _

theorem helperMegaqueuePrefaultRange_spec {pageSize queueSize : BitVec 64} {k : ℕ}
    (hpow : pageSize.toNat = 2 ^ k) (hlo : 4 ≤ pageSize.toNat) (hhi : pageSize.toNat ≤ 2 ^ 29)
    (hqueue : 1 ≤ queueSize.toNat) (mem : Bytes) :
    helperMegaqueuePrefaultRange (mappedBytes pageSize queueSize) (prefetchLength pageSize queueSize) pageSize
        mem =
      some (aOk, (List.range ((prefetchBefore pageSize queueSize - 1) / pageSize.toNat)).foldl
        (fun mem i => mem.store (i * pageSize.toNat) 4 0xdead) mem) := by
  have hpage : 1 ≤ pageSize.toNat := by omega
  have hpos : 0 < prefetchBefore pageSize queueSize := prefetchBefore_pos hqueue hpage
  have hle : prefetchBefore pageSize queueSize ≤ 2 ^ 30 := prefetchBefore_le hhi
  have hbytes : prefetchLength pageSize queueSize ≠ 0 := by
    intro hzero
    have hlength := toNat_prefetchLength (k := k) hpow hhi ▸ congrArg BitVec.toNat hzero
    rw [rounded_up hpage hpos, Nat.add_mul, Nat.one_mul] at hlength
    simp at hlength
    omega
  have hpages : ∀ i ∈ List.range ((prefetchBefore pageSize queueSize - 1) / pageSize.toNat),
      i * pageSize.toNat < 2 ^ 64 ∧
        i * pageSize.toNat + 4 ≤ mappedBytes pageSize queueSize := by
    intro i hi
    have hnext : (i + 1) * pageSize.toNat ≤
        (prefetchBefore pageSize queueSize - 1) / pageSize.toNat * pageSize.toNat :=
      Nat.mul_le_mul_right _ (List.mem_range.1 hi)
    have hfloor := Nat.div_mul_le_self (prefetchBefore pageSize queueSize - 1) pageSize.toNat
    have hinside : (prefetchBefore pageSize queueSize - 1) / pageSize.toNat * pageSize.toNat ≤
        mappedBytes pageSize queueSize :=
      Nat.mul_le_mul_right _ (Nat.div_le_div_right (prefetchBefore_lt hqueue hpage))
    rw [Nat.add_mul, Nat.one_mul] at hnext
    constructor <;> omega
  rw [helperMegaqueuePrefaultRange, if_neg hbytes, toNat_pageCount hpow hhi hqueue, foldlM_touchPage hpages,
    Option.map_some]

/-- The length for a queue of one page is two pages. -/
theorem prefetchLength_page {pageSize : BitVec 64} {k : ℕ} (hpow : pageSize.toNat = 2 ^ k)
    (hlo : 2 ≤ pageSize.toNat) (hhi : pageSize.toNat ≤ 2 ^ 29) :
    (prefetchLength pageSize pageSize).toNat = 2 * pageSize.toNat := by
  have hbefore : prefetchBefore pageSize pageSize = pageSize.toNat + pageSize.toNat - 1 :=
    if_neg (Nat.not_lt.2 hhi)
  have htwo : (pageSize.toNat + pageSize.toNat - 1 + pageSize.toNat - 1) / pageSize.toNat = 2 :=
    Nat.div_eq_of_lt_le (by omega) (by omega)
  rw [toNat_prefetchLength hpow hhi, hbefore, htwo]

/-- **Prefaulting stays inside the mapping**, for every queue and every page size from 4 bytes to
    512 MB, though the length it is given need not. -/
theorem prefault_inside {pageSize : BitVec 64} (hpow : ∃ k, pageSize.toNat = 2 ^ k)
    (hlo : 4 ≤ pageSize.toNat) (hhi : pageSize.toNat ≤ 2 ^ 29) :
    (∀ (queueSize : BitVec 64) (mem : Bytes), 1 ≤ queueSize.toNat →
      ∃ touched, helperMegaqueuePrefaultRange (mappedBytes pageSize queueSize)
        (prefetchLength pageSize queueSize) pageSize mem = some (aOk, touched)) ∧
      ∃ queueSize : BitVec 64, 1 ≤ queueSize.toNat ∧
        mappedBytes pageSize queueSize < (prefetchLength pageSize queueSize).toNat := by
  obtain ⟨k, hpow⟩ := hpow
  refine ⟨fun queueSize mem hqueue => ⟨_, helperMegaqueuePrefaultRange_spec hpow hlo hhi hqueue mem⟩,
    pageSize, by omega, ?_⟩
  have hone : (pageSize.toNat + pageSize.toNat - 1) / pageSize.toNat = 1 :=
    Nat.div_eq_of_lt_le (by omega) (by omega)
  rw [prefetchLength_page hpow (by omega) hhi, mappedBytes, hone]
  omega

/-- A page of 4096 bytes. -/
theorem prefault_inside_page4k :
    (∀ (queueSize : BitVec 64) (mem : Bytes), 1 ≤ queueSize.toNat →
      ∃ touched, helperMegaqueuePrefaultRange (mappedBytes 4096 queueSize) (prefetchLength 4096 queueSize) 4096
        mem = some (aOk, touched)) ∧
      ∃ queueSize : BitVec 64, 1 ≤ queueSize.toNat ∧
        mappedBytes 4096 queueSize < (prefetchLength 4096 queueSize).toNat :=
  prefault_inside ⟨12, by decide⟩ (by decide) (by decide)

/-! ## Over a segment -/

section Segments

variable {page : PageSize} {queueSize : BitVec 64}

theorem PageSize.down_eq (page : PageSize) (x : ℕ) : page.down x = x / page.bytes * page.bytes := by
  have hsplit := Nat.div_add_mod' x page.bytes
  unfold PageSize.down
  omega

theorem bytes_megaqueuePrefaultRange (page : PageSize) (bytes : ℕ) (base : Segment) :
    (megaqueuePrefaultRange page bytes base).bytes =
      (List.range ((bytes - 1) / page.bytes)).foldl
        (fun mem i => mem.store (i * page.bytes) 4 0xdead) base.bytes := by
  have hpage : 0 < page.bytes := Nat.two_pow_pos page.shift
  have hcount : page.down (bytes - 1) / page.bytes = (bytes - 1) / page.bytes := by
    rw [page.down_eq, Nat.mul_div_cancel _ hpage]
  simp only [megaqueuePrefaultRange, hcount]
  generalize List.range _ = pages
  induction pages generalizing base with
  | nil => rfl
  | cons i pages ih => exact ih _

/-- What a creating open does to a segment is this loop, in the arithmetic of `size_t`. -/
theorem helperMegaqueuePrefaultRange_eq (hshift : page.shift ≤ 29) (hqueue : 1 ≤ queueSize.toNat)
    (base : Segment) :
    helperMegaqueuePrefaultRange (mappedBytes (BitVec.ofNat 64 page.bytes) queueSize)
        (prefetchLength (BitVec.ofNat 64 page.bytes) queueSize) (BitVec.ofNat 64 page.bytes)
        base.bytes =
      some (aOk, (megaqueuePrefaultRange page (prefetchSize page queueSize.toNat) base).bytes) := by
  have hhi : page.bytes ≤ 2 ^ 29 := Nat.pow_le_pow_right (by decide) hshift
  have hlo : 2 ^ 12 ≤ page.bytes := Nat.pow_le_pow_right (by decide) page.large
  have hpage : (BitVec.ofNat 64 page.bytes).toNat = page.bytes :=
    Nat.mod_eq_of_lt (Nat.lt_of_le_of_lt hhi (by decide))
  have hbefore : 0 < prefetchBefore (BitVec.ofNat 64 page.bytes) queueSize :=
    prefetchBefore_pos hqueue (by omega)
  have hsize : prefetchSize page queueSize.toNat =
      (prefetchBefore (BitVec.ofNat 64 page.bytes) queueSize + page.bytes - 1) / page.bytes *
        page.bytes := by
    rw [prefetchSize, page.down_eq, prefetchBefore, hpage]
  rw [helperMegaqueuePrefaultRange_spec (k := page.shift) hpage (by omega) (by omega) hqueue,
    bytes_megaqueuePrefaultRange, hsize, hpage, rounded_down (by omega) hbefore]

end Segments

end Tsl
