import Yaos.Net.Transmit

set_option autoImplicit false

/-! # The scatter list of a packet (`module/net/virtio/main.c`)

`lwip_tx_func` cuts each buffer of a chain at the end of the page it begins in, since what is consecutive
in the kernel's address space is so in physical memory only within a page. -/

namespace Yaos

/-- The addresses of the bytes of a buffer. -/
def Pbuf.bytes (q : Pbuf) : List Nat := List.range' q.payload q.len

/-- The pages in which a buffer has bytes. -/
def Pbuf.pages (q : Pbuf) : Nat := (q.payload + q.len - 1) / 4096 - q.payload / 4096 + 1

/-- The pages that the pieces of a chain touch. -/
def chainPages (chain : List Pbuf) : Nat := (chain.map Pbuf.pages).sum

/-- The vectors are the bytes of the chain in order, none is empty, and each lies in one page. -/
structure Scattered (chain : List Pbuf) (vecs : List (Nat × Nat)) : Prop where
  bytes : (vecs.flatMap fun v => List.range' v.1 v.2) = chain.flatMap Pbuf.bytes
  nonempty : ∀ v ∈ vecs, 0 < v.2
  page : ∀ v ∈ vecs, v.1 / 4096 = (v.1 + v.2 - 1) / 4096

/-- A chain with few pieces is scattered, and one with more never makes the loop write past the end of
    `vecs`. -/
def ScatteredOrStopped (chain : List Pbuf) : Prop :=
  (chainPages chain < maxVecs → ∃ vecs, txVecs chain [] = .ok vecs ∧ Scattered chain vecs) ∧
    (maxVecs ≤ chainPages chain → txVecs chain [] ≠ .error (.panic "vecs overrun"))

/-- The buffer is not longer than a page. -/
def Pbuf.Short (q : Pbuf) : Prop := 1 ≤ q.len ∧ q.len ≤ 4096

/-- The piece ends with a page. -/
def Pbuf.EndsPage (q : Pbuf) : Prop := (q.payload + q.len) % 4096 = 0

/-- The first buffer that finds more than eight vectors, of `n` before the chain, finds nine and takes
    one. -/
def StopsInTime : Nat → List Pbuf → Prop
  | _, [] => True
  | n, q :: chain => if n < 9 then StopsInTime (n + q.parts) chain else n = 9 ∧ q.parts = 1

/-! ## The vectors of a chain -/

/-- The vectors of one buffer. -/
def Pbuf.vecs (q : Pbuf) : List (Nat × Nat) :=
  if pageStart q.payload = pageStart (q.payload + q.len) then [(q.payload, q.len)]
  else [(q.payload, pageStart (q.payload + q.len) - q.payload),
    (pageStart (q.payload + q.len), (q.payload + q.len) % 4096)]

theorem Pbuf.vecs_length (q : Pbuf) : q.vecs.length = q.parts := by
  rw [Pbuf.vecs, Pbuf.parts]
  split <;> rfl

section Vecs

variable {q : Pbuf} {chain : List Pbuf} {vecs vecs' : List (Nat × Nat)}

/-- A buffer that has room: nine vectors at most if it takes one, ten if it takes two. -/
theorem txVecs_room (h : vecs.length < 9) : txVecs (q :: chain) vecs = txVecs chain (vecs ++ q.vecs) := by
  have hwrite : ∀ i < maxVecs, writeVec i = .ok () := fun i hi => if_pos hi
  rw [txVecs, Pbuf.vecs]
  by_cases hsame : pageStart q.payload = pageStart (q.payload + q.len)
  · rw [if_pos hsame, if_pos hsame, hwrite _ (by unfold maxVecs; omega), ok_bind,
      assert_bind (by unfold maxVecs; omega)]
  · rw [if_neg hsame, if_neg hsame, hwrite _ (by unfold maxVecs; omega), ok_bind]

/-- A buffer that has none: the loop is stopped only by the assertion of the first branch. -/
theorem txVecs_full (h : 9 ≤ vecs.length) : txVecs (q :: chain) vecs =
    .error (if vecs.length = 9 ∧ q.parts = 1 then .assertion "nr_vec<MAX_VECS" else .panic "vecs overrun") := by
  rw [txVecs, Pbuf.parts]
  by_cases hsame : pageStart q.payload = pageStart (q.payload + q.len)
  · rw [if_pos hsame, if_pos hsame]
    by_cases hnine : vecs.length = 9
    · -- the last vector is written, and the assertion behind the write fails
      rw [if_pos ⟨hnine, rfl⟩, writeVec, if_pos (by rw [hnine]; decide), ok_bind,
        assert_neg (by rw [hnine]; decide)]
      rfl
    · rw [if_neg fun hno => hnine hno.1, writeVec, if_neg (by unfold maxVecs; omega)]
      rfl
  · rw [if_neg hsame, if_neg hsame, if_neg fun hno => absurd hno.2 (by decide), writeVec,
      if_neg (by unfold maxVecs; omega)]
    rfl

/-- The loop writes past the end unless it stops in time. -/
theorem txVecs_overrun_iff : txVecs chain vecs = .error (.panic "vecs overrun") ↔
    ¬ StopsInTime vecs.length chain := by
  induction chain generalizing vecs with
  | nil => simp [txVecs, StopsInTime]
  | cons q chain ih =>
      rw [StopsInTime]
      by_cases h : vecs.length < 9
      · rw [txVecs_room h, if_pos h, ih, List.length_append, q.vecs_length]
      · rw [txVecs_full (Nat.le_of_not_lt h), if_neg h]
        split
        case isTrue hstop => simp [hstop]
        case isFalse hover => simp [hover]

/-- With room for all of them the vectors are those of the buffers, one after the other. -/
theorem txVecs_eq (h : vecs.length + (chain.map Pbuf.parts).sum < maxVecs) :
    txVecs chain vecs = .ok (vecs ++ chain.flatMap Pbuf.vecs) := by
  induction chain generalizing vecs with
  | nil => simp [txVecs]
  | cons q chain ih =>
      rw [List.map_cons, List.sum_cons] at h
      have hparts := q.parts_pos
      rw [txVecs_room (by unfold maxVecs at h; omega), ih]
      · rw [List.flatMap_cons, List.append_assoc]
      · rw [List.length_append, q.vecs_length]
        omega

/-- And whenever the loop comes back they are. -/
theorem eq_of_txVecs (h : txVecs chain vecs = .ok vecs') : vecs' = vecs ++ chain.flatMap Pbuf.vecs := by
  induction chain generalizing vecs with
  | nil =>
      obtain rfl := Except.ok.inj h
      simp
  | cons q chain ih =>
      by_cases hroom : vecs.length < 9
      · rw [txVecs_room hroom] at h
        rw [ih h, List.flatMap_cons, List.append_assoc]
      · rw [txVecs_full (Nat.le_of_not_lt hroom)] at h
        cases h

/-! ## One buffer -/

theorem Pbuf.bytes_vecs (q : Pbuf) : (q.vecs.flatMap fun v => List.range' v.1 v.2) = q.bytes := by
  rw [Pbuf.vecs, Pbuf.bytes]
  split
  case isTrue => simp
  case isFalse hcross =>
      have hle : q.payload ≤ pageStart (q.payload + q.len) := by
        unfold pageStart at hcross ⊢
        omega
      have hstart : q.payload + (pageStart (q.payload + q.len) - q.payload) =
          pageStart (q.payload + q.len) := Nat.add_sub_of_le hle
      have hsum : pageStart (q.payload + q.len) - q.payload + (q.payload + q.len) % 4096 = q.len := by
        unfold pageStart at hle ⊢
        omega
      have happend := List.range'_append_1 (s := q.payload)
        (m := pageStart (q.payload + q.len) - q.payload) (n := (q.payload + q.len) % 4096)
      rw [hstart, hsum] at happend
      simpa using happend

/-- A buffer that does not end a page is cut into what it has in each page. -/
theorem Pbuf.vecs_of_not_endsPage (hq : q.Short) (h : ¬ q.EndsPage) :
    q.parts = q.pages ∧ ∀ v ∈ q.vecs, 0 < v.2 ∧ v.1 / 4096 = (v.1 + v.2 - 1) / 4096 := by
  obtain ⟨hlo, hhi⟩ := hq
  unfold Pbuf.EndsPage at h
  rw [Pbuf.parts, Pbuf.pages, Pbuf.vecs]
  unfold pageStart
  split
  case isTrue hsame =>
      refine ⟨by omega, fun v hv => ?_⟩
      rw [List.mem_singleton.1 hv]
      dsimp only
      omega
  case isFalse hcross =>
      refine ⟨by omega, fun v hv => ?_⟩
      rcases List.mem_cons.1 hv with rfl | hv
      · dsimp only
        omega
      · rw [List.mem_singleton.1 hv]
        dsimp only
        omega

/-- A buffer that ends a page has an empty vector. -/
theorem Pbuf.empty_of_endsPage (hq : q.Short) (h : q.EndsPage) : ∃ v ∈ q.vecs, v.2 = 0 := by
  have hcross : ¬ pageStart q.payload = pageStart (q.payload + q.len) := by
    obtain ⟨hlo, hhi⟩ := hq
    unfold Pbuf.EndsPage at h
    unfold pageStart
    omega
  rw [Pbuf.vecs, if_neg hcross]
  exact ⟨_, List.mem_cons_of_mem _ List.mem_cons_self, h⟩

/-! ## The chain -/

theorem chainPages_eq (hshort : ∀ q ∈ chain, q.Short) (h : ∀ q ∈ chain, ¬ q.EndsPage) :
    (chain.map Pbuf.parts).sum = chainPages chain := by
  rw [chainPages]
  congr 1
  exact List.map_congr_left fun q hq => (q.vecs_of_not_endsPage (hshort q hq) (h q hq)).1

theorem scattered_of_not_endsPage (hshort : ∀ q ∈ chain, q.Short) (h : ∀ q ∈ chain, ¬ q.EndsPage) :
    Scattered chain (chain.flatMap Pbuf.vecs) := by
  have hvec : ∀ v ∈ chain.flatMap Pbuf.vecs, 0 < v.2 ∧ v.1 / 4096 = (v.1 + v.2 - 1) / 4096 := by
    intro v hv
    obtain ⟨q, hq, hv⟩ := List.mem_flatMap.1 hv
    exact (q.vecs_of_not_endsPage (hshort q hq) (h q hq)).2 v hv
  refine ⟨?_, fun v hv => (hvec v hv).1, fun v hv => (hvec v hv).2⟩
  rw [List.flatMap_assoc]
  exact List.flatMap_congr fun q _ => q.bytes_vecs

end Vecs

/-- **The scatter list.** A chain with fewer than ten pieces is scattered exactly when no buffer ends at
    the end of a page, and one with more does not make the loop write past the end of `vecs` exactly when it
    stops in time. -/
theorem scattered_iff (chain : List Pbuf) (hshort : ∀ q ∈ chain, q.Short) : ScatteredOrStopped chain ↔
    if chainPages chain < maxVecs then ∀ q ∈ chain, ¬ q.EndsPage else StopsInTime 0 chain := by
  by_cases hfew : chainPages chain < maxVecs
  · rw [if_pos hfew]
    constructor
    · rintro ⟨hscatter, -⟩ q hq hend
      obtain ⟨vecs, hvecs, hscattered⟩ := hscatter hfew
      obtain ⟨v, hv, hempty⟩ := q.empty_of_endsPage (hshort q hq) hend
      have hin : v ∈ vecs := by
        rw [eq_of_txVecs hvecs, List.nil_append]
        exact List.mem_flatMap.2 ⟨q, hq, hv⟩
      exact absurd hempty (Nat.ne_of_gt (hscattered.nonempty v hin))
    · intro h
      refine ⟨fun _ => ⟨chain.flatMap Pbuf.vecs, ?_, scattered_of_not_endsPage hshort h⟩, fun hmany => ?_⟩
      · rw [txVecs_eq, List.nil_append]
        rw [List.length_nil, Nat.zero_add, chainPages_eq hshort h]
        exact hfew
      · exact absurd hfew (Nat.not_lt_of_le hmany)
  · rw [if_neg hfew, ScatteredOrStopped]
    have hstop : txVecs chain [] ≠ .error (.panic "vecs overrun") ↔ StopsInTime 0 chain := by
      rw [ne_eq, txVecs_overrun_iff, not_not, List.length_nil]
    rw [← hstop]
    exact ⟨fun h => h.2 (Nat.le_of_not_lt hfew), fun h => ⟨fun hno => absurd hno hfew, fun _ => h⟩⟩

/-- A buffer over the end of a page and one within a page. -/
theorem scattered_two : ScatteredOrStopped [{ payload := 0x1fe0, len := 64 }, { payload := 0x3010, len := 100 }] := by
  refine (scattered_iff _ fun q hq => ?_).2 ?_
  · rcases List.mem_cons.1 hq with rfl | hq
    · exact ⟨by decide, by decide⟩
    · rw [List.mem_singleton.1 hq]
      exact ⟨by decide, by decide⟩
  · rw [if_pos (by decide)]
    intro q hq
    rcases List.mem_cons.1 hq with rfl | hq
    · unfold Pbuf.EndsPage
      decide
    · rw [List.mem_singleton.1 hq]
      unfold Pbuf.EndsPage
      decide

/-- A buffer that ends at the end of a page is sent with an empty vector for the page after it. -/
theorem not_scattered : ¬ ScatteredOrStopped [{ payload := 0x1fc0, len := 64 }] := by
  rintro ⟨hscatter, -⟩
  obtain ⟨vecs, hvecs, hscattered⟩ := hscatter (by decide)
  have hrun : txVecs [{ payload := 0x1fc0, len := 64 }] [] = .ok [(0x1fc0, 64), (0x2000, 0)] := rfl
  rw [hrun] at hvecs
  obtain rfl := Except.ok.inj hvecs
  exact absurd (hscattered.nonempty (0x2000, 0) (by simp)) (by decide)

end Yaos
