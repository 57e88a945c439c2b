import Mathlib.Data.List.Basic

/-!
# Scanning a buffer with a cursor

Code that is handed a pointer and a length reads `mem[pos]` under the test
`pos < len`.  Here every read is checked against the memory (`mem[pos]?`), so
that a read past its end is `none` and not a value.

* `scanWhile` — the loop `while (pos < len && p(mem[pos])) { acc = f(acc,
  mem[pos]); pos++; }`; its result carries the proof that the cursor did not
  move back, which is what the loops around it need to terminate;
* `Window mem len pos rest` — the bytes from `pos` up to `len` lie in the
  memory and are `rest`;
* `scanWhile_window` — in a window the loop reads `takeWhile`, stops at
  `dropWhile`, and makes no read past `len`.
-/

namespace HftEngine.Lib

variable {α β : Type*}

/-- The end of a scan from `start`. -/
structure Scanned (start : Nat) (β : Type*) where
  pos : Nat
  acc : β
  start_le : start ≤ pos

def scanWhile (p : α → Bool) (f : β → α → β) (mem : List α) (len pos : Nat) (acc : β) :
    Option (Scanned pos β) :=
  if pos < len then
    match mem[pos]? with
    | none => none
    | some c =>
      if p c then
        (scanWhile p f mem len (pos + 1) (f acc c)).map fun s =>
          ⟨s.pos, s.acc, Nat.le_of_succ_le s.start_le⟩
      else some ⟨pos, acc, Nat.le_refl pos⟩
  else some ⟨pos, acc, Nat.le_refl pos⟩
termination_by len - pos

/-- The bytes from `start` up to `stop`. -/
def slice (mem : List α) (start stop : Nat) : Option (List α) :=
  if stop ≤ mem.length then some ((mem.take stop).drop start) else none

/-- From `pos` up to `len` the memory holds `rest`. -/
structure Window (mem : List α) (len pos : Nat) (rest : List α) : Prop where
  rest_eq : (mem.take len).drop pos = rest
  pos_le : pos ≤ len
  len_le : len ≤ mem.length

section Window

variable {mem rest : List α} {len pos : Nat} {c : α}

/-- A whole buffer, with whatever lies behind it in memory. -/
theorem window_start (buf tail : List α) : Window (buf ++ tail) buf.length 0 buf :=
  ⟨by simp, Nat.zero_le _, by simp⟩

theorem Window.length_eq (hw : Window mem len pos rest) : len = pos + rest.length := by
  have hle := hw.pos_le
  have hlen := hw.len_le
  rw [← hw.rest_eq, List.length_drop, List.length_take]
  omega

theorem Window.read (hw : Window mem len pos (c :: rest)) : mem[pos]? = some c := by
  have hlt : pos < len := by
    have hlen := hw.length_eq
    rw [List.length_cons] at hlen
    omega
  have hhead : ((mem.take len).drop pos)[0]? = some c := by rw [hw.rest_eq]; rfl
  rw [List.getElem?_drop, Nat.add_zero, List.getElem?_take_of_lt hlt] at hhead
  exact hhead

theorem Window.next (hw : Window mem len pos (c :: rest)) : Window mem len (pos + 1) rest := by
  have hlen := hw.length_eq
  rw [List.length_cons] at hlen
  refine ⟨?_, by omega, hw.len_le⟩
  rw [← List.drop_drop, hw.rest_eq]
  rfl

theorem Window.advance {xs : List α} (hw : Window mem len pos (xs ++ rest)) :
    Window mem len (pos + xs.length) rest := by
  induction xs generalizing pos with
  | nil => exact hw
  | cons x xs ih =>
    have hnext := ih hw.next
    rw [List.length_cons, Nat.add_comm xs.length, ← Nat.add_assoc]
    exact hnext

/-- The front of a window, read as a slice. -/
theorem Window.slice_eq {xs : List α} (hw : Window mem len pos (xs ++ rest)) :
    slice mem pos (pos + xs.length) = some xs := by
  have hlen := hw.length_eq
  have hmem := hw.len_le
  rw [List.length_append] at hlen
  rw [slice, if_pos (by omega)]
  have hcut : mem.take (pos + xs.length) = (mem.take len).take (pos + xs.length) := by
    rw [List.take_take, Nat.min_eq_left (by omega)]
  rw [hcut, List.drop_take, hw.rest_eq]
  simp

theorem scanWhile_stop {p : α → Bool} (f : β → α → β) (acc : β)
    (hw : Window mem len pos (c :: rest)) (hp : p c = false) :
    scanWhile p f mem len pos acc = some ⟨pos, acc, Nat.le_refl pos⟩ := by
  have hlen := hw.length_eq
  rw [List.length_cons] at hlen
  rw [scanWhile, if_pos (by omega), hw.read]
  simp [hp]

theorem scanWhile_next {p : α → Bool} (f : β → α → β) (acc : β)
    (hw : Window mem len pos (c :: rest)) (hp : p c = true) :
    scanWhile p f mem len pos acc =
      (scanWhile p f mem len (pos + 1) (f acc c)).map fun s =>
        ⟨s.pos, s.acc, Nat.le_of_succ_le s.start_le⟩ := by
  have hlen := hw.length_eq
  rw [List.length_cons] at hlen
  rw [scanWhile, if_pos (by omega), hw.read]
  simp [hp]

/-- In a window, the loop reads the longest front on which `p` holds and stops
right behind it. -/
theorem scanWhile_window {p : α → Bool} (f : β → α → β) (acc : β)
    (hw : Window mem len pos rest) :
    ∃ s, scanWhile p f mem len pos acc = some s ∧
      s.pos = pos + (rest.takeWhile p).length ∧ s.acc = (rest.takeWhile p).foldl f acc := by
  induction rest generalizing pos acc with
  | nil =>
    have hlen := hw.length_eq
    rw [List.length_nil] at hlen
    rw [scanWhile, if_neg (by omega)]
    exact ⟨_, rfl, rfl, rfl⟩
  | cons c rest ih =>
    cases hp : p c with
    | false =>
      rw [scanWhile_stop f acc hw hp, List.takeWhile_cons_of_neg (by simp [hp])]
      exact ⟨_, rfl, rfl, rfl⟩
    | true =>
      obtain ⟨s, hs, hpos, hacc⟩ := ih (f acc c) hw.next
      rw [scanWhile_next f acc hw hp, hs, List.takeWhile_cons_of_pos hp]
      refine ⟨_, rfl, ?_, hacc⟩
      show s.pos = _
      rw [hpos, List.length_cons]
      omega

end Window

end HftEngine.Lib
