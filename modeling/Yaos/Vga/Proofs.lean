import Mathlib.Data.List.GetD
import Mathlib.Tactic.Ring
import Yaos.Vga

set_option autoImplicit false

/-! # What the screen shows of a text

A text is a list of lines, with a new line at each 80 characters. The first 25 lines are on the screen. The next
one is written below it, as the screen is scrolled only when the row behind that one is reached; it is not
scrolled into sight, and is lost. So is every second line from there on. -/

namespace Yaos.Vga

/-! ## The scroll -/

@[simp] theorem writew_xpos (v : Screen) (c : BitVec 16) (a : Nat) : (v.writew c a).xpos = v.xpos := rfl

@[simp] theorem writew_ypos (v : Screen) (c : BitVec 16) (a : Nat) : (v.writew c a).ypos = v.ypos := rfl

/-- The screen with other cells. -/
def Screen.withCell (v : Screen) (cell : Nat → BitVec 16) : Screen := { v with cell }

theorem withCell_writew (v : Screen) (cell : Nat → BitVec 16) (c : BitVec 16) (a : Nat) :
    (v.withCell cell).writew c a = v.withCell fun x => if x = a then c else cell x := by
  unfold Screen.writew Screen.withCell
  congr 1
  funext x
  rw [Function.update_apply]

@[simp] theorem withCell_self (v : Screen) : v.withCell v.cell = v := rfl

/-- The first `n` cells of a row are copied to the row before. -/
theorem copyRow_part (k : Nat) (v : Screen) {n : Nat} (hn : n ≤ maxXpos) :
    (List.range n).foldl (fun v i => v.writew (v.cell (maxXpos * (k + 1) + i)) (maxXpos * k + i)) v =
      v.withCell fun x =>
        if maxXpos * k ≤ x ∧ x < maxXpos * k + n then v.cell (x + maxXpos) else v.cell x := by
  unfold maxXpos at *
  induction n with
  | zero =>
      have hnone : ∀ x, ¬ (80 * k ≤ x ∧ x < 80 * k + 0) := by omega
      simp only [List.range_zero, List.foldl_nil, hnone, if_false, withCell_self]
  | succ n ih =>
      rw [List.range_succ, List.foldl_append, ih (by omega), List.foldl_cons, List.foldl_nil,
        withCell_writew]
      congr 1
      funext x
      dsimp only [Screen.withCell]
      by_cases hx : x = 80 * k + n
      · subst hx
        rw [if_pos rfl, if_neg (by omega), if_pos (by omega)]
        congr 1
        ring
      · rw [if_neg hx]
        by_cases hin : 80 * k ≤ x ∧ x < 80 * k + n
        · rw [if_pos hin, if_pos (by omega)]
        · rw [if_neg hin, if_neg (by omega)]

theorem copyRow_eq (k : Nat) (v : Screen) :
    copyRow (k + 1) v = v.withCell fun x =>
      if maxXpos * k ≤ x ∧ x < maxXpos * (k + 1) then v.cell (x + maxXpos) else v.cell x :=
  copyRow_part k v (Nat.le_refl maxXpos)

theorem clearRow_part (j : Nat) (v : Screen) (n : Nat) :
    (List.range n).foldl (fun v i => v.writew 0x720 (maxXpos * j + i)) v =
      v.withCell fun x => if maxXpos * j ≤ x ∧ x < maxXpos * j + n then 0x720 else v.cell x := by
  induction n with
  | zero =>
      have hnone : ∀ x, ¬ (maxXpos * j ≤ x ∧ x < maxXpos * j + 0) := by omega
      simp only [List.range_zero, List.foldl_nil, hnone, if_false, withCell_self]
  | succ n ih =>
      rw [List.range_succ, List.foldl_append, ih, List.foldl_cons, List.foldl_nil, withCell_writew]
      congr 1
      funext x
      by_cases hx : x = maxXpos * j + n
      · rw [if_pos hx, if_pos (by omega)]
      · rw [if_neg hx]
        by_cases hin : maxXpos * j ≤ x ∧ x < maxXpos * j + n
        · rw [if_pos hin, if_pos (by omega)]
        · rw [if_neg hin, if_neg (by omega)]

/-- The rows after the first are copied one up. -/
theorem copyRows_eq (m : Nat) (v : Screen) :
    (List.range' 1 m).foldl (fun v k => copyRow k v) v =
      v.withCell fun x => if x < maxXpos * m then v.cell (x + maxXpos) else v.cell x := by
  induction m with
  | zero => simp
  | succ m ih =>
      rw [List.range'_1_concat, List.foldl_append, ih, List.foldl_cons, List.foldl_nil, Nat.add_comm 1 m,
        copyRow_eq]
      unfold Screen.withCell maxXpos
      congr 1
      funext x
      dsimp only
      by_cases hrow : 80 * m ≤ x ∧ x < 80 * (m + 1)
      · rw [if_pos hrow, if_neg (by omega), if_pos hrow.2]
      · rw [if_neg hrow]
        by_cases hx : x < 80 * m
        · rw [if_pos hx, if_pos (by omega)]
        · rw [if_neg hx, if_neg (by omega)]

theorem scroll_eq (v : Screen) :
    scroll v =
      { v with
        ypos := 24
        cell := fun x => if x < 80 * 24 then v.cell (x + 80) else if x < 80 * 25 then 0x720 else v.cell x } := by
  unfold scroll clearRow maxYpos
  simp only [copyRows_eq, clearRow_part]
  unfold Screen.withCell maxXpos
  congr 1
  funext x
  dsimp only
  by_cases hrow : x < 80 * 24
  · rw [if_neg (by omega), if_pos (by omega), if_pos hrow]
  · by_cases hlast : x < 80 * 25
    · rw [if_pos (by omega), if_neg hrow, if_pos hlast]
    · rw [if_neg (by omega), if_neg (by omega), if_neg hrow, if_neg hlast]

/-! ## Texts -/

theorem getD_snoc {α : Type} (l : List α) (a d : α) (i : Nat) :
    (l ++ [a]).getD i d = if i = l.length then a else l.getD i d := by
  rcases Nat.lt_trichotomy i l.length with hlt | rfl | hgt
  · rw [if_neg (Nat.ne_of_lt hlt), List.getD_append _ _ _ _ hlt]
  · rw [if_pos rfl, List.getD_append_right _ _ _ _ (Nat.le_refl _), Nat.sub_self]
    rfl
  · have hlen : (l ++ [a]).length ≤ i := by
      rw [List.length_append, List.length_singleton]
      exact hgt
    rw [if_neg (Nat.ne_of_gt hgt), List.getD_eq_default _ _ hlen,
      List.getD_eq_default _ _ (Nat.le_of_lt hgt)]

/-- The lines that are complete, and the one that the cursor is in. -/
structure Transcript where
  lines : List (List (BitVec 16))
  cur : List (BitVec 16)

namespace Transcript

/-- The line is ended. -/
def newline (t : Transcript) : Transcript := { lines := t.lines ++ [t.cur], cur := [] }

/-- A character is added to the line. -/
def append (t : Transcript) (c : BitVec 16) : Transcript := { t with cur := t.cur ++ [c] }

/-- A line is full with 80 characters. -/
def put (attributeByte : BitVec 8) (t : Transcript) (c : BitVec 8) : Transcript :=
  if c = 0x0a then t.newline
  else if c = 0x0d then t
  else
    let t := t.append (colored attributeByte c)
    if t.cur.length = 80 then t.newline else t

/-- The line `k`, which is empty when the text has not come to it. -/
def line (t : Transcript) (k : Nat) : List (BitVec 16) := (t.lines ++ [t.cur]).getD k []

theorem line_newline (t : Transcript) (k : Nat) : t.newline.line k = t.line k := by
  unfold line newline
  dsimp only
  rw [getD_snoc (t.lines ++ [t.cur])]
  split
  · next hk => rw [hk, List.getD_eq_default _ _ (Nat.le_refl _)]
  · rfl

theorem line_cur (t : Transcript) : t.line t.lines.length = t.cur := by
  rw [line, getD_snoc, if_pos rfl]

theorem line_append (t : Transcript) (c : BitVec 16) {k : Nat} (hk : k ≠ t.lines.length) :
    (t.append c).line k = t.line k := by
  unfold line append
  dsimp only
  rw [getD_snoc, getD_snoc, if_neg hk, if_neg hk]

end Transcript

/-! ## The screen and the text -/

/-- The line that the row `j` would have on a screen that is never scrolled. From the line 25 on each second
one is lost. -/
def kept (j : Nat) : Nat := if j ≤ 24 then j else 2 * j - 24

section Shows

variable (init : Nat → BitVec 16)

/-- A cell of this row. Behind the text is what was there before, and blanks in a row that has come up. -/
def shown (t : Transcript) (j x : Nat) : BitVec 16 :=
  (t.line (kept j)).getD x (if j ≤ 24 then init (80 * j + x) else 0x720)

/-- The screen has been scrolled `s` times. -/
structure Shows (s : Nat) (v : Screen) (t : Transcript) : Prop where
  ypos : v.ypos + 2 * s = t.lines.length
  ypos_ge : s = 0 ∨ 24 ≤ v.ypos
  ypos_le : v.ypos ≤ 26
  xpos : v.xpos = t.cur.length
  behind : v.ypos = 26 → t.cur = []
  cell : ∀ r < 25, ∀ x < 80, v.cell (80 * r + x) = shown init t (r + s) x
  frame : ∀ a, 80 * 26 ≤ a → v.cell a = init a

end Shows

variable {init : Nat → BitVec 16} {s : Nat} {v : Screen} {t : Transcript}

theorem shown_newline (j x : Nat) : shown init t.newline j x = shown init t j x := by
  rw [shown, t.line_newline]
  rfl

theorem Shows.scroll (h : Shows init s v t) (hy : v.ypos = 26) : Shows init (s + 1) (scroll v) t := by
  have hlines := h.ypos
  have hcur := h.behind hy
  rw [scroll_eq]
  have hnot : ¬ (24 : Nat) = 26 := by decide
  refine ⟨by dsimp only; omega, .inr (Nat.le_refl 24), Nat.le_add_right 24 2, h.xpos,
    fun h => absurd h hnot, fun r hr x hx => ?_, fun a ha => ?_⟩
  · dsimp only
    by_cases hlast : r = 24
    · have hkept : kept (r + (s + 1)) = t.lines.length := by
        unfold kept
        rw [if_neg (by omega)]
        omega
      rw [if_neg (by omega), if_pos (by omega), shown, hkept, t.line_cur, hcur, if_neg (by omega)]
      rfl
    · have hup : 80 * r + x + 80 = 80 * (r + 1) + x := by omega
      rw [if_pos (by omega), hup, h.cell (r + 1) (by omega) x hx, Nat.add_assoc, Nat.add_comm 1 s]
  · dsimp only
    rw [if_neg (by omega), if_neg (by omega)]
    exact h.frame a ha

/-- The cursor goes to the next line. -/
theorem Shows.newline (h : Shows init s v t) (hy : v.ypos ≤ 25) :
    Shows init s { v with xpos := 0, ypos := v.ypos + 1 } t.newline := by
  have hlines := h.ypos
  refine ⟨?_, h.ypos_ge.imp_right Nat.le_succ_of_le, Nat.succ_le_succ hy, rfl, fun _ => rfl,
    fun r hr x hx => ?_, h.frame⟩
  · rw [Transcript.newline, List.length_append, List.length_singleton]
    dsimp only
    omega
  · rw [shown_newline]
    exact h.cell r hr x hx

/-- The row that the cursor is in has the current line, if it is on the screen. -/
theorem Shows.kept_eq_iff (h : Shows init s v t) (hy : v.ypos ≤ 25) {r : Nat} (hr : r < 25) :
    kept (r + s) = t.lines.length ↔ r = v.ypos := by
  have hlines := h.ypos
  have hge := h.ypos_ge
  unfold kept
  split <;> omega

/-- A character is written. The line may be full then. -/
theorem Shows.append (h : Shows init s v t) (hy : v.ypos ≤ 25) (hlt : t.cur.length < 80) (c : BitVec 16) :
    Shows init s { v.writew c (80 * v.ypos + v.xpos) with xpos := v.xpos + 1 } (t.append c) := by
  have hxpos := h.xpos
  refine ⟨h.ypos, h.ypos_ge, h.ypos_le, ?_, fun h26 => ?_, fun r hr x hx => ?_, fun a ha => ?_⟩
  · rw [Transcript.append, List.length_append, List.length_singleton, ← hxpos]
  · dsimp only [writew_ypos] at h26
    omega
  · dsimp only [Screen.writew]
    rw [Function.update_apply]
    by_cases hrow : r = v.ypos
    · have hkept := (h.kept_eq_iff hy hr).2 hrow
      have hline : (t.append c).line (kept (r + s)) = t.cur ++ [c] := by
        rw [hkept]
        exact (t.append c).line_cur
      have hbefore := h.cell r hr x hx
      rw [shown, hkept, t.line_cur] at hbefore
      rw [shown, hline]
      rw [getD_snoc]
      by_cases hcol : x = t.cur.length
      · rw [if_pos (by omega), if_pos hcol]
      · rw [if_neg (by omega), if_neg hcol, hbefore]
    · have hline := t.line_append c fun hkept => hrow ((h.kept_eq_iff hy hr).1 hkept)
      rw [if_neg (by omega), shown, hline]
      exact h.cell r hr x hx
  · dsimp only [Screen.writew]
    rw [Function.update_of_ne (by omega)]
    exact h.frame a ha

theorem putChar_shows (attributeByte c : BitVec 8) (h : Shows init s v t) (hlt : t.cur.length < 80) :
    ∃ s', Shows init s' (putChar attributeByte v c) (t.put attributeByte c) := by
  have hscrolled : ∃ s', Shows init s' (if v.ypos > maxYpos then scroll v else v) t ∧
      (if v.ypos > maxYpos then scroll v else v).ypos ≤ 25 := by
    have hle := h.ypos_le
    unfold maxYpos
    by_cases hy : v.ypos > 25
    · rw [if_pos hy]
      refine ⟨s + 1, h.scroll (by omega), ?_⟩
      rw [scroll_eq]
      exact Nat.le_succ 24
    · rw [if_neg hy]
      exact ⟨s, h, Nat.le_of_not_lt hy⟩
  unfold putChar Transcript.put
  generalize (if v.ypos > maxYpos then scroll v else v) = v₁ at hscrolled
  obtain ⟨s', h', hy⟩ := hscrolled
  refine ⟨s', ?_⟩
  by_cases hnl : c = 0x0a
  · rw [if_pos hnl, if_pos hnl]
    exact h'.newline hy
  · rw [if_neg hnl, if_neg hnl]
    by_cases hcr : c = 0x0d
    · rw [if_neg (not_not_intro hcr), if_pos hcr]
      exact h'
    · have happ := h'.append hy hlt (colored attributeByte c)
      have hlen : (t.append (colored attributeByte c)).cur.length = v₁.xpos + 1 := happ.xpos.symm
      rw [if_pos hcr, if_neg hcr]
      unfold maxXpos
      dsimp only
      by_cases hfull : v₁.xpos + 1 ≥ 80
      · have hxpos := h'.xpos
        rw [if_pos hfull, if_pos (by omega)]
        exact happ.newline hy
      · rw [if_neg hfull, if_neg (by omega)]
        exact happ

/-- The cursor is never behind the row. -/
theorem put_lt (attributeByte c : BitVec 8) (h : t.cur.length < 80) :
    (t.put attributeByte c).cur.length < 80 := by
  unfold Transcript.put
  split
  · exact Nat.succ_pos 79
  · split
    · exact h
    · dsimp only
      split
      · exact Nat.succ_pos 79
      · next hne =>
          rw [Transcript.append, List.length_append, List.length_singleton] at hne ⊢
          exact Nat.lt_of_le_of_ne h hne

/-! ## Calls -/

/-- The characters of a string that are written. -/
def printed (size : Nat) (str : List (BitVec 8)) : List (BitVec 8) :=
  if size = 0 then str.takeWhile (· ≠ 0) else (str.takeWhile (· ≠ 0)).take size

theorem putChars_eq (attributeByte : BitVec 8) (size : Nat) (str : List (BitVec 8)) (cnt : Nat) (v : Screen)
    (hcnt : size = 0 ∨ cnt < size) :
    putChars attributeByte size str cnt v =
      (if size = 0 then str.takeWhile (· ≠ 0) else (str.takeWhile (· ≠ 0)).take (size - cnt)).foldl
        (putChar attributeByte) v := by
  induction str generalizing cnt v with
  | nil => simp [putChars]
  | cons c str ih =>
      rw [putChars]
      by_cases hc : c = 0
      · rw [if_pos hc, List.takeWhile_cons_of_neg (by simp [hc])]
        simp
      · rw [if_neg hc, List.takeWhile_cons_of_pos (by simpa using hc)]
        by_cases hsize : size = 0
        · rw [if_neg fun h => h.1 hsize, if_pos hsize, List.foldl_cons, ih _ _ (.inl hsize), if_pos hsize]
        · have hlt : cnt < size := hcnt.resolve_left hsize
          obtain ⟨left, hleft⟩ := Nat.exists_eq_succ_of_ne_zero (Nat.sub_ne_zero_of_lt hlt)
          rw [if_neg hsize, hleft, List.take_succ_cons, List.foldl_cons]
          by_cases hlast : cnt + 1 ≥ size
          · have hnone : left = 0 := by omega
            rw [if_pos ⟨hsize, hlast⟩, hnone, List.take_zero, List.foldl_nil]
          · have hrest : size - (cnt + 1) = left := by omega
            rw [if_neg fun h => hlast h.2, ih _ _ (.inr (by omega)), if_neg hsize, hrest]

/-- A call of `vga_puts_color`. -/
structure Call where
  back : BitVec 8
  fore : BitVec 8
  str : List (BitVec 8)
  size : Nat

/-- One call. -/
def Call.run (c : Call) (v : Screen) : Screen := vgaPutsColor c.back c.fore c.str c.size v

/-- What the call prints. -/
def Call.text (c : Call) (t : Transcript) : Transcript :=
  (printed c.size c.str).foldl (Transcript.put (c.back <<< 4 ||| c.fore &&& 0x0f)) t

theorem putChars_shows (attributeByte : BitVec 8) (cs : List (BitVec 8)) (h : Shows init s v t)
    (hlt : t.cur.length < 80) :
    ∃ s', Shows init s' (cs.foldl (putChar attributeByte) v) (cs.foldl (Transcript.put attributeByte) t) ∧
      (cs.foldl (Transcript.put attributeByte) t).cur.length < 80 := by
  induction cs generalizing s v t with
  | nil => exact ⟨s, h, hlt⟩
  | cons c cs ih =>
      obtain ⟨s', h'⟩ := putChar_shows attributeByte c h hlt
      exact ih h' (put_lt attributeByte c hlt)

theorem Call.shows (c : Call) (h : Shows init s v t) (hlt : t.cur.length < 80) :
    ∃ s', Shows init s' (c.run v) (c.text t) ∧ (c.text t).cur.length < 80 := by
  have hrun : c.run v = (printed c.size c.str).foldl (putChar (c.back <<< 4 ||| c.fore &&& 0x0f)) v := by
    refine putChars_eq _ _ _ _ _ ?_
    rcases Nat.eq_zero_or_pos c.size with hsize | hsize
    · exact .inl hsize
    · exact .inr hsize
  rw [hrun]
  exact putChars_shows _ _ h hlt

/-- No row has a line with an odd number from 25 on. -/
theorem kept_even (j : Nat) : kept j ≤ 24 ∨ kept j % 2 = 0 := by
  unfold kept
  split <;> omega

/-- Whatever has been written in whatever colours, each row shows its line of the text, and nothing is written
behind the row after the last. After the first 25 lines every second one is not shown. -/
theorem console_shows (calls : List Call) (init : Nat → BitVec 16) :
    ∃ s, Shows init s
        (calls.foldl (fun v c => c.run v) { cell := init, ypos := 0, xpos := 0 })
        (calls.foldl (fun t c => c.text t) { lines := [], cur := [] }) ∧
      ∀ r, kept (r + s) ≤ 24 ∨ kept (r + s) % 2 = 0 := by
  have hfirst : Shows init 0 { cell := init, ypos := 0, xpos := 0 } { lines := [], cur := [] } := by
    refine ⟨rfl, .inl rfl, Nat.zero_le 26, rfl, fun _ => rfl, fun r hr x hx => ?_, fun _ _ => rfl⟩
    have hkept : kept (r + 0) = r := if_pos (Nat.le_of_lt_succ hr)
    have hempty : Transcript.line { lines := [], cur := [] } r = [] := by
      cases r <;> rfl
    have hrow : r + 0 ≤ 24 := Nat.le_of_lt_succ hr
    rw [shown, hkept, hempty, if_pos hrow]
    rfl
  have hrun : ∀ (cs : List Call) s v t, Shows init s v t → t.cur.length < 80 →
      ∃ s', Shows init s' (cs.foldl (fun v c => c.run v) v) (cs.foldl (fun t c => c.text t) t) := by
    intro cs
    induction cs with
    | nil => exact fun s v t h _ => ⟨s, h⟩
    | cons c cs ih =>
        intro s v t h hlt
        obtain ⟨s', h', hlt'⟩ := c.shows h hlt
        exact ih s' _ _ h' hlt'
  obtain ⟨s, hs⟩ := hrun calls 0 _ _ hfirst (Nat.succ_pos 79)
  exact ⟨s, hs, fun r => kept_even (r + s)⟩

end Yaos.Vga
