import Yaos.Boot.OnMem

set_option autoImplicit false

/-! # Which frames `on_mem` hands over

The head of a range that starts inside a 2 MiB page is donated with the size of the rest instead of
its own, a range that ends at the top of memory loses its tail, and a range whose start is not 4 KiB
aligned trips the assertion of `free_kheap_small`. The main theorem gives the exact inputs on which
every frame is nevertheless handed over once. -/

namespace Yaos

open Word

namespace Donated

@[simp] theorem nothing_andThen (b : Donated) : nothing.andThen b = b := rfl

@[simp] theorem mk_none_andThen (xs : List Donation) (b : Donated) :
    (Donated.mk xs none).andThen b = ⟨xs ++ b.handed, b.fault⟩ := rfl

@[simp] theorem mk_some_andThen (xs : List Donation) (e : Fault) (b : Donated) :
    (Donated.mk xs (some e)).andThen b = ⟨xs, some e⟩ := rfl

theorem assert_pos {text : String} {c : Prop} [Decidable c] (h : c) (b : Donated) :
    assert text c b = b := if_pos h

theorem assert_neg {text : String} {c : Prop} [Decidable c] (h : ¬ c) (b : Donated) :
    assert text c b = ⟨[], some (.assertion text)⟩ := if_neg h

end Donated

/-! ## What is handed over, case by case -/

/-- The kernel address of an unaligned physical address is unaligned too. -/
theorem P2K_mod_4K (addr : Nat) : P2K addr % 0x1000 = addr % 0x1000 := by
  unfold P2K wadd kernelBase
  omega

/-- A start that is not 4 KiB aligned fails the assertion of `free_kheap_small`. -/
theorem onMem_unaligned (l : PhyLimits) {addr : Nat} (size : Nat) (h : addr % 0x1000 ≠ 0) :
    (onMem l addr size).handed = [] := by
  have hfail : ∀ n, Donated.freeKheapSmall (P2K addr) n
      = ⟨[], some (.assertion "(addr & 0xfff) == 0 && (size & 0xfff) == 0")⟩ := fun n =>
    Donated.assert_neg (by rw [P2K_mod_4K]; exact fun hc => h hc.1) _
  rw [onMem, onMemAux]
  simp only [ne_eq, h, not_false_iff, if_true, hfail]
  split
  · split
    · rfl
    · rfl
  · rfl

/-- The part below the top of memory that goes to the small frame store. -/
def belowMax (l : PhyLimits) (addr n : Nat) : List Donation :=
  if addr + n < l.maxPhyMemAddr then [⟨.phyPageSmall, addr, n⟩] else []

theorem giveBelowMax_eq (l : PhyLimits) {addr n : Nat} (hb : addr + n < 2 ^ 64)
    (ha : addr % 0x1000 = 0) (hn : n % 0x1000 = 0) :
    giveBelowMax l addr n = ⟨belowMax l addr n, none⟩ := by
  rw [giveBelowMax, belowMax, wadd_eq hb]
  split
  · exact Donated.assert_pos ⟨ha, hn⟩ _
  · rfl

/-- The donations of a range that starts on a 2 MiB boundary. -/
def donateAligned (l : PhyLimits) (addr n : Nat) : List Donation :=
  if n = 0 then []
  else if n < 0x200000 then belowMax l addr n
  else (if addr ≠ 0 then [⟨.phyPages, addr, n / 0x200000 * 0x200000⟩] else []) ++
    if n % 0x200000 = 0 then [] else belowMax l (addr + n / 0x200000 * 0x200000) (n % 0x200000)

section

variable (l : PhyLimits) {addr size n : Nat}

theorem onMemAux_aligned {fuel : Nat} (hb : addr + n < 2 ^ 64) (hmax : addr + n ≤ l.maxPhyMemAddr)
    (ha : addr % 0x200000 = 0) (hn : n = alignDown 0x1000 size) :
    onMemAux l (fuel + 1) addr size = ⟨donateAligned l addr n, none⟩ := by
  have hn4 : n % 0x1000 = 0 := hn ▸ alignDown_mod _ _
  have h4 : ¬ addr % 0x1000 ≠ 0 := by omega
  rw [onMemAux]
  simp only [h4, if_false, ← hn, ha, ne_eq, not_true]
  rw [donateAligned]
  by_cases h0 : n = 0
  · simp only [h0, if_true]
    rfl
  by_cases hlt : n < 0x200000
  · simp only [h0, hlt, if_true, if_false]
    exact giveBelowMax_eq l hb (by omega) hn4
  simp only [h0, hlt, if_false]
  have hpages : Donated.freePhyPages l addr (n / 0x200000 * 0x200000)
      = ⟨if addr ≠ 0 then [⟨.phyPages, addr, n / 0x200000 * 0x200000⟩] else [], none⟩ := by
    have hle := l.mem_le
    rw [Donated.freePhyPages, Donated.assert_pos (by omega)]
    by_cases hz : addr = 0
    · simp [hz, Donated.nothing]
    · simp only [hz, ne_eq, not_false_iff, if_true]
      rw [Donated.assert_pos ⟨ha, by omega⟩, Donated.assert_pos (by omega)]
  rw [hpages, Donated.mk_none_andThen]
  by_cases hr : n % 0x200000 = 0
  · simp [hr, Donated.nothing]
  · rw [if_neg hr, if_neg hr, wadd_eq (by omega),
      giveBelowMax_eq l (by omega) (by omega) (by omega)]

/-- All donations of a range that starts on a 4 KiB boundary. -/
def donateFrames (l : PhyLimits) (addr n : Nat) : List Donation :=
  let lowsize := 0x200000 - addr % 0x200000
  if addr % 0x200000 ≠ 0 ∧ 0x200000 ≤ n then
    ⟨.phyPageSmall, addr, n - lowsize⟩ :: donateAligned l (addr + lowsize) (n - lowsize)
  else donateAligned l addr n

theorem onMem_handed (hb : addr + n < 2 ^ 64) (hmax : addr + n ≤ l.maxPhyMemAddr)
    (ha : addr % 0x1000 = 0) (hn : n = alignDown 0x1000 size) :
    onMem l addr size = ⟨donateFrames l addr n, none⟩ := by
  by_cases hlow : addr % 0x200000 = 0
  · rw [onMem, onMemAux_aligned l hb hmax hlow hn, donateFrames]
    simp [hlow]
  have hn4 : n % 0x1000 = 0 := hn ▸ alignDown_mod _ _
  have h4 : ¬ addr % 0x1000 ≠ 0 := by omega
  rw [onMem, onMemAux, donateFrames]
  simp only [h4, if_false, ← hn, hlow, ne_eq, not_false_iff, if_true, true_and]
  by_cases hbig : 0x200000 ≤ n
  · have h1 : ¬ n = 0 := by omega
    have h2 : ¬ n < 0x200000 := by omega
    have h3 : ¬ n ≤ 0x200000 - addr % 0x200000 := by omega
    simp only [h1, h2, h3, hbig, if_true, if_false]
    rw [wsub_eq (by omega) (by omega), giveBelowMax_eq l (by omega) (by omega) (by omega),
      belowMax, if_pos (by omega), wadd_eq (by omega), onMemAux_aligned l (by omega) (by omega)
        (by omega) (alignDown_eq_self (by omega)).symm]
    rfl
  · by_cases h0 : n = 0
    · subst h0
      simp only [if_true]
      rfl
    · have hlt : n < 0x200000 := by omega
      simp only [h0, hlt, hbig, if_true, if_false]
      rw [giveBelowMax_eq l hb ha hn4, donateAligned, if_neg h0, if_pos hlt]

end

/-! ## Exactly once -/

/-- The donation holds the whole 4 KiB frame at `x`. -/
def Donation.holds (d : Donation) (x : Nat) : Bool := d.addr ≤ x && x + 0x1000 ≤ d.addr + d.size

/-- How often the frame at `x` is handed over. -/
def timesHanded (ds : List Donation) (x : Nat) : Nat := ds.countP (·.holds x)

/-- `x` is a whole frame of the range outside 2 MiB page 0. -/
def FrameOf (addr size x : Nat) : Prop :=
  x % 0x1000 = 0 ∧ addr ≤ x ∧ x + 0x1000 ≤ addr + size ∧ 0x200000 ≤ x

/-- Every whole frame of the range outside 2 MiB page 0 is handed to one store once, and nothing
    outside the range is handed to any store. -/
def DonatesExactly (ds : List Donation) (addr size : Nat) : Prop :=
  (∀ x, FrameOf addr size x → timesHanded ds x = 1) ∧
    ∀ d ∈ ds, ∀ a, d.addr ≤ a → a < d.addr + d.size → addr ≤ a ∧ a < addr + size

/-- The inputs on which `on_mem` hands over every frame once. With `n` the size rounded down to
    4 KiB:
    * a start off a 4 KiB boundary: only if there is no frame to hand over;
    * less than 2 MiB: the range ends below the top of memory, or lies in page 0;
    * a start inside a 2 MiB page: moreover the rest is just as long as the head (in page 0, whose
      frames do not matter, at most as long);
    * a start on a 2 MiB boundary: whole 2 MiB pages, or an end below the top of memory; and from
      address 0 nothing beyond the second 2 MiB page. -/
def OnMemExact (l : PhyLimits) (addr size : Nat) : Prop :=
  let n := size - size % 0x1000
  let fits := addr + n < l.maxPhyMemAddr
  if addr % 0x1000 ≠ 0 then
    addr + size < max ((addr + 0xfff) / 0x1000 * 0x1000) 0x200000 + 0x1000
  else if n < 0x200000 then n = 0 ∨ fits ∨ addr + n ≤ 0x200000
  else if addr % 0x200000 ≠ 0 then
    fits ∧ (n = 2 * (0x200000 - addr % 0x200000) ∨
      addr < 0x200000 ∧ n ≤ 2 * (0x200000 - addr % 0x200000))
  else (n % 0x200000 = 0 ∨ fits) ∧ (addr = 0 → n < 0x400000)

@[simp] theorem timesHanded_nil (x : Nat) : timesHanded [] x = 0 := rfl

@[simp] theorem timesHanded_cons (d : Donation) (ds : List Donation) (x : Nat) :
    timesHanded (d :: ds) x
      = timesHanded ds x + if d.addr ≤ x ∧ x + 0x1000 ≤ d.addr + d.size then 1 else 0 := by
  simp [timesHanded, List.countP_cons, Donation.holds]

@[simp] theorem timesHanded_append (ds ds' : List Donation) (x : Nat) :
    timesHanded (ds ++ ds') x = timesHanded ds x + timesHanded ds' x := List.countP_append

theorem timesHanded_belowMax (l : PhyLimits) (addr n x : Nat) :
    timesHanded (belowMax l addr n) x
      = if addr + n < l.maxPhyMemAddr ∧ addr ≤ x ∧ x + 0x1000 ≤ addr + n then 1 else 0 := by
  unfold belowMax
  by_cases hfit : addr + n < l.maxPhyMemAddr
  · simp [hfit]
  · simp [hfit]

/-- A range from a 2 MiB boundary is cut into pages and a tail without overlap: a frame is handed
    over at most once, and not at all if it lies in page 0 or in a tail at the top of memory. -/
theorem timesHanded_donateAligned (l : PhyLimits) {addr n x : Nat} (ha : addr % 0x200000 = 0)
    (hx : x % 0x1000 = 0) (hn : n % 0x1000 = 0) :
    timesHanded (donateAligned l addr n) x
      = if addr ≤ x ∧ x + 0x1000 ≤ addr + n ∧ (addr ≠ 0 ∧ x < addr + n / 0x200000 * 0x200000 ∨
          addr + n / 0x200000 * 0x200000 ≤ x ∧ addr + n < l.maxPhyMemAddr) then 1 else 0 := by
  unfold donateAligned
  by_cases h0 : n = 0
  · rw [if_pos h0, if_neg (by omega)]
    rfl
  rw [if_neg h0]
  by_cases hlt : n < 0x200000
  · rw [if_pos hlt, timesHanded_belowMax]
    congr 1
    simp only [eq_iff_iff]
    omega
  rw [if_neg hlt, timesHanded_append]
  have hpages : timesHanded (if addr ≠ 0 then
      [⟨.phyPages, addr, n / 0x200000 * 0x200000⟩] else []) x
      = if addr ≠ 0 ∧ addr ≤ x ∧ x < addr + n / 0x200000 * 0x200000 then 1 else 0 := by
    by_cases hz : addr = 0
    · simp [hz]
    · simp only [ne_eq, hz, not_false_iff, if_true, timesHanded_cons, timesHanded_nil, true_and,
        Nat.zero_add]
      congr 1
      simp only [eq_iff_iff]
      omega
  have htail : timesHanded (if n % 0x200000 = 0 then [] else
      belowMax l (addr + n / 0x200000 * 0x200000) (n % 0x200000)) x
      = if addr + n < l.maxPhyMemAddr ∧ addr + n / 0x200000 * 0x200000 ≤ x ∧
          x + 0x1000 ≤ addr + n then 1 else 0 := by
    by_cases hr : n % 0x200000 = 0
    · rw [if_pos hr, timesHanded_nil, if_neg (by omega)]
    · rw [if_neg hr, timesHanded_belowMax]
      congr 1
      simp only [eq_iff_iff]
      omega
  rw [hpages, htail]
  split <;> split <;> split <;> omega

/-- Nothing outside the range is handed over, whatever the range. -/
theorem donateAligned_inside (l : PhyLimits) {addr n : Nat} {d : Donation}
    (hd : d ∈ donateAligned l addr n) : addr ≤ d.addr ∧ d.addr + d.size ≤ addr + n := by
  have hbelow : ∀ {a m : Nat}, d ∈ belowMax l a m → d.addr = a ∧ d.size = m := by
    intro a m hm
    unfold belowMax at hm
    split at hm
    · rw [List.mem_singleton] at hm
      subst hm
      exact ⟨rfl, rfl⟩
    · cases hm
  unfold donateAligned at hd
  split at hd
  · cases hd
  split at hd
  · have := hbelow hd
    omega
  rcases List.mem_append.1 hd with hp | ht
  · split at hp
    · rw [List.mem_singleton] at hp
      subst hp
      simp only
      omega
    · cases hp
  · split at ht
    · cases ht
    · have := hbelow ht
      omega

theorem donateFrames_inside (l : PhyLimits) {addr n : Nat} {d : Donation}
    (hd : d ∈ donateFrames l addr n) : addr ≤ d.addr ∧ d.addr + d.size ≤ addr + n := by
  unfold donateFrames at hd
  split at hd
  · rcases List.mem_cons.1 hd with rfl | hd
    · simp only
      omega
    · have := donateAligned_inside l hd
      omega
  · exact donateAligned_inside l hd

/-- A range that starts inside a 2 MiB page: the first donation has the size of the rest. -/
theorem frames_once_iff_of_low (l : PhyLimits) {addr n : Nat} (ha : addr % 0x1000 = 0)
    (hn : n % 0x1000 = 0) (hmax : addr + n ≤ l.maxPhyMemAddr) (hlow : addr % 0x200000 ≠ 0)
    (hbig : 0x200000 ≤ n) :
    (∀ x, FrameOf addr n x → timesHanded (donateFrames l addr n) x = 1) ↔
      addr + n < l.maxPhyMemAddr ∧ (n = 2 * (0x200000 - addr % 0x200000) ∨
        addr < 0x200000 ∧ n ≤ 2 * (0x200000 - addr % 0x200000)) := by
  set lowsize := 0x200000 - addr % 0x200000 with hls
  have htimes : ∀ x, x % 0x1000 = 0 → timesHanded (donateFrames l addr n) x
      = (if addr + lowsize ≤ x ∧ x + 0x1000 ≤ addr + n ∧
          (x < addr + lowsize + (n - lowsize) / 0x200000 * 0x200000 ∨
            addr + lowsize + (n - lowsize) / 0x200000 * 0x200000 ≤ x ∧
            addr + n < l.maxPhyMemAddr) then 1 else 0)
        + if addr ≤ x ∧ x + 0x1000 ≤ addr + (n - lowsize) then 1 else 0 := by
    intro x hx
    rw [donateFrames, if_pos ⟨hlow, hbig⟩, timesHanded_cons,
      timesHanded_donateAligned l (by omega) hx (by omega), ← hls]
    congr 2
    simp only [eq_iff_iff]
    omega
  constructor
  · intro h
    -- the frame at the next 2 MiB boundary is handed over twice unless the rest is short
    have hpages : n - lowsize < 0x200000 := by
      by_contra hlong
      have := h (addr + lowsize) ⟨by omega, by omega, by omega, by omega⟩
      rw [htimes _ (by omega), if_pos (by omega), if_pos (by omega)] at this
      omega
    have hfits : addr + n < l.maxPhyMemAddr := by
      by_contra hfull
      have := h (addr + n - 0x1000) ⟨by omega, by omega, by omega, by omega⟩
      rw [htimes _ (by omega), if_neg (by omega), if_neg (by omega)] at this
      omega
    have hshort : n - lowsize ≤ lowsize := by
      by_contra hlong
      have := h (addr + lowsize) ⟨by omega, by omega, by omega, by omega⟩
      rw [htimes _ (by omega), if_pos (by omega), if_pos (by omega)] at this
      omega
    refine ⟨hfits, ?_⟩
    by_cases hpage0 : addr < 0x200000
    · exact .inr ⟨hpage0, by omega⟩
    · -- outside page 0 the frame behind the first donation must not be left out
      left
      by_contra hne
      have := h (addr + (n - lowsize)) ⟨by omega, by omega, by omega, by omega⟩
      rw [htimes _ (by omega), if_neg (by omega), if_neg (by omega)] at this
      omega
  · rintro ⟨hfits, hlen⟩ x ⟨hx, hlo, hhi, hpage⟩
    rw [htimes x hx]
    split <;> split <;> omega

/-- A range that is cut from its start into 2 MiB pages and a tail. -/
theorem frames_once_iff_of_whole (l : PhyLimits) {addr n : Nat} (ha : addr % 0x200000 = 0)
    (hn : n % 0x1000 = 0) (hmax : addr + n ≤ l.maxPhyMemAddr) (hbig : 0x200000 ≤ n) :
    (∀ x, FrameOf addr n x → timesHanded (donateFrames l addr n) x = 1) ↔
      (n % 0x200000 = 0 ∨ addr + n < l.maxPhyMemAddr) ∧ (addr = 0 → n < 0x400000) := by
  have heq : donateFrames l addr n = donateAligned l addr n := by
    rw [donateFrames, if_neg (fun h => h.1 ha)]
  rw [heq]
  constructor
  · intro h
    refine ⟨?_, fun hz => ?_⟩
    · by_contra hcon
      rw [not_or] at hcon
      have := h (addr + n - 0x1000) ⟨by omega, by omega, by omega, by omega⟩
      rw [timesHanded_donateAligned l ha (by omega) hn, if_neg (by omega)] at this
      omega
    · by_contra hcon
      have := h 0x200000 ⟨by omega, by omega, by omega, by omega⟩
      rw [timesHanded_donateAligned l ha (by omega) hn, if_neg (by omega)] at this
      omega
  · rintro ⟨htail, hzero⟩ x ⟨hx, hlo, hhi, hpage⟩
    rw [timesHanded_donateAligned l ha hx hn, if_pos]
    omega

/-- A range of less than 2 MiB. -/
theorem frames_once_iff_of_small (l : PhyLimits) {addr n : Nat} (ha : addr % 0x1000 = 0)
    (hn : n % 0x1000 = 0) (hlt : n < 0x200000) :
    (∀ x, FrameOf addr n x → timesHanded (donateFrames l addr n) x = 1) ↔
      n = 0 ∨ addr + n < l.maxPhyMemAddr ∨ addr + n ≤ 0x200000 := by
  have htimes : ∀ x, timesHanded (donateFrames l addr n) x = if n ≠ 0 ∧
      addr + n < l.maxPhyMemAddr ∧ addr ≤ x ∧ x + 0x1000 ≤ addr + n then 1 else 0 := by
    intro x
    rw [donateFrames, if_neg (by omega), donateAligned]
    by_cases h0 : n = 0
    · simp [h0]
    · rw [if_neg h0, if_pos hlt, timesHanded_belowMax]
      simp [h0]
  constructor
  · intro h
    by_contra hcon
    rw [not_or, not_or] at hcon
    have := h (addr + n - 0x1000) ⟨by omega, by omega, by omega, by omega⟩
    rw [htimes, if_neg (by omega)] at this
    omega
  · rintro hcase x ⟨hx, hlo, hhi, hpage⟩
    rw [htimes, if_pos (by omega)]

/-- **Donation of RAM.** For a range below the top of memory, `on_mem` hands every whole frame
    outside page 0 to one store once, and nothing else to any store, exactly when the range meets
    `OnMemExact`. -/
theorem onMem_exact_iff (l : PhyLimits) (addr size : Nat) (hwrap : addr + size < 2 ^ 64)
    (hmax : addr + size ≤ l.maxPhyMemAddr) :
    DonatesExactly (onMem l addr size).handed addr size ↔ OnMemExact l addr size := by
  by_cases ha : addr % 0x1000 = 0
  · -- frames are whole, so only the size rounded down matters
    have hn : size - size % 0x1000 = alignDown 0x1000 size := rfl
    have hframe : ∀ x, FrameOf addr size x ↔ FrameOf addr (size - size % 0x1000) x := by
      intro x
      unfold FrameOf
      omega
    set n := size - size % 0x1000 with hndef
    have hn4 : n % 0x1000 = 0 := hn ▸ alignDown_mod _ _
    rw [onMem_handed l (by omega) (by omega) ha hn]
    have hinside : ∀ d ∈ donateFrames l addr n, ∀ a, d.addr ≤ a → a < d.addr + d.size →
        addr ≤ a ∧ a < addr + size := by
      intro d hd a hlo hhi
      have := donateFrames_inside l hd
      omega
    have hiff : DonatesExactly (donateFrames l addr n) addr size ↔
        ∀ x, FrameOf addr n x → timesHanded (donateFrames l addr n) x = 1 := by
      simp only [DonatesExactly, hframe]
      exact ⟨fun h => h.1, fun h => ⟨h, hinside⟩⟩
    rw [hiff, OnMemExact, ← hndef]
    simp only [ha, ne_eq, not_true, if_false]
    by_cases hlt : n < 0x200000
    · rw [if_pos hlt]
      exact frames_once_iff_of_small l ha hn4 hlt
    rw [if_neg hlt]
    by_cases hlow : addr % 0x200000 = 0
    · rw [if_neg (not_not.2 hlow)]
      exact frames_once_iff_of_whole l hlow hn4 (by omega) (by omega)
    · rw [if_pos hlow]
      exact frames_once_iff_of_low l ha hn4 (by omega) hlow (by omega)
  · -- nothing is handed over, so there must be nothing to hand over
    rw [onMem_unaligned l size ha]
    simp only [DonatesExactly, OnMemExact, ne_eq, ha, not_false_iff, if_true, timesHanded_nil,
      List.not_mem_nil, false_imp_iff, implies_true, and_true]
    constructor
    · intro h
      by_contra hcon
      have := h (max ((addr + 0xfff) / 0x1000 * 0x1000) 0x200000)
        ⟨by omega, by omega, by omega, by omega⟩
      omega
    · rintro h x ⟨hx, hlo, hhi, hpage⟩
      omega

/-- A machine with 1 GiB of RAM. -/
def oneGiB : PhyLimits := ⟨0x40000000, 0x40000000, Nat.le_refl _⟩

/-- On 1 GiB of RAM, a head that is as long as the rest goes through. -/
theorem onMem_exact_iff_oneGiB :
    DonatesExactly (onMem oneGiB 0x300000 0x200000).handed 0x300000 0x200000 :=
  (onMem_exact_iff oneGiB 0x300000 0x200000 (by decide) (by decide)).2 (by
    unfold OnMemExact; decide)

/-- The frame at 4 MiB, handed over with the head of the range and again with its pages. -/
theorem onMem_hands_twice :
    ¬ DonatesExactly (onMem oneGiB 0x300000 0x500000).handed 0x300000 0x500000 := by
  intro h
  have := h.1 0x400000 ⟨by decide, by decide, by decide, by decide⟩
  exact absurd this (by decide)

end Yaos
