import Mathlib.Algebra.Order.BigOperators.Group.List
import AionOs.Lib.CArray
import AionOs.Lib.Machine
import AionOs.Action.Recall

/-!
# Results

`record_result` and `action_get_results_str` over what they share: the cells, the count and the
buffer of the text, all of them static.

* `messages_recordResult`: the cells stand for the list of results.
* `printResults_fits`, `printResults_isSome`: what the loop leaves in the buffer, and when it
  stays inside.
* `results_inside_iff`: which results overflow the buffer.
* `results_delivered_iff`: the runs in which every reader gets what is new.
-/

namespace AionOs

open Bytes

/-! ### The code -/

/-- An element of `action_results`; its last byte is never written. -/
structure ResultCell where
  bytes : List U8
  length_eq : bytes.length = 256
  ends : bytes.drop 255 = [0]

def ResultCell.zero : ResultCell where
  bytes := List.replicate 256 0
  length_eq := List.length_replicate
  ends := by rw [List.drop_replicate]; rfl

/-- `strncpy(cell, fmt, 255)` -/
def ResultCell.copy (c : ResultCell) (fmt : List U8) : ResultCell where
  bytes := fmt.take 255 ++ List.replicate (255 - fmt.length) 0 ++ c.bytes.drop 255
  length_eq := by
    rw [c.ends, List.length_append, List.length_append, List.length_take, List.length_replicate,
      List.length_singleton]
    omega
  ends := by
    have hlen : (fmt.take 255 ++ List.replicate (255 - fmt.length) (0 : U8)).length = 255 := by
      rw [List.length_append, List.length_take, List.length_replicate]
      omega
    rw [List.drop_left' hlen]
    exact c.ends

def ResultCell.text (c : ResultCell) : List U8 := cstr c.bytes

structure ResultBufs where
  actionResults : CArray ResultCell 32
  actionResultCount : Nat
  le : actionResultCount ≤ 32
  buf : CArray U8 8192

def ResultBufs.start : ResultBufs := ⟨CArray.fill 32 ResultCell.zero, 0, Nat.zero_le _, CArray.fill 8192 0⟩

def ResultBufs.recordResult (fmt : CString) (s : ResultBufs) : ResultBufs :=
  if h : s.actionResultCount < 32 then
    let cell := s.actionResults.cells.get ⟨s.actionResultCount, by rw [s.actionResults.length_eq]; exact h⟩
    { s with
      actionResults := s.actionResults.put s.actionResultCount [cell.copy fmt.bytes] h
      actionResultCount := s.actionResultCount + 1
      le := h }
  else s

/-- `"[RESULT] %s\\n"` -/
def resultLine (m : List U8) : List U8 := ascii "[RESULT] " ++ m ++ [0x0a]

/-- `snprintf(buf + pos, sizeof(buf) - pos, …)`, with the difference in a `size_t`; none if it
writes outside. -/
def snprintfAt (buf : CArray U8 8192) (pos : Nat) (text : List U8) : Option (CArray U8 8192) :=
  let size := (8192 - BitVec.ofNat 64 pos).toNat
  if size = 0 then some buf else buf.store pos (text.take (size - 1) ++ [0#8])

/-- The loop, from `pos` on. -/
def printResults (buf : CArray U8 8192) (pos : Nat) : List (List U8) → Option (CArray U8 8192)
  | [] => some buf
  | m :: ms => (snprintfAt buf pos (resultLine m)).bind fun b => printResults b (pos + (resultLine m).length) ms

/-- `pos` at each iteration. -/
def positions (pos : Nat) : List (List U8) → List Nat
  | [] => []
  | m :: ms => pos :: positions (pos + (resultLine m).length) ms

def ResultBufs.messages (s : ResultBufs) : List (List U8) :=
  (s.actionResults.cells.take s.actionResultCount).map ResultCell.text

/-- `action_get_results_str`: the string it returns, and what it leaves. -/
def actionGetResultsStr (s : ResultBufs) : Option (List U8 × ResultBufs) :=
  (printResults s.buf 0 s.messages).map fun b =>
    (cstr b.cells, { s with actionResultCount := 0, le := Nat.zero_le _, buf := b })

/-! ### The cells -/

theorem ResultCell.text_copy (c : ResultCell) (fmt : CString) :
    (c.copy fmt.bytes).text = fmt.bytes.take 255 := by
  have hzeros : ∃ rest, List.replicate (255 - fmt.bytes.length) (0 : U8) ++ c.bytes.drop 255 = 0#8 :: rest := by
    rw [c.ends]
    cases 255 - fmt.bytes.length with
    | zero => exact ⟨[], rfl⟩
    | succ n => exact ⟨List.replicate n 0 ++ [0], by rw [List.replicate_succ, List.cons_append]; rfl⟩
  obtain ⟨rest, hrest⟩ := hzeros
  rw [ResultCell.text, ResultCell.copy]
  dsimp only
  rw [List.append_assoc, hrest]
  exact cstr_append_zero (fun b hb => fmt.ne_zero b (List.mem_of_mem_take hb)) rest

theorem ResultBufs.length_messages (s : ResultBufs) : s.messages.length = s.actionResultCount := by
  have := s.le
  rw [ResultBufs.messages, List.length_map, List.length_take, s.actionResults.length_eq]
  omega

theorem ResultBufs.ne_zero (s : ResultBufs) : ∀ m ∈ s.messages, ∀ b ∈ m, b ≠ 0#8 := by
  intro m hm b hb
  obtain ⟨c, _, rfl⟩ := List.mem_map.mp hm
  have := List.mem_takeWhile_imp hb
  simpa using this

/-- **The cells stand for the list of results.** -/
theorem messages_recordResult (fmt : CString) (s : ResultBufs) :
    (s.recordResult fmt).messages = AionOs.recordResult fmt.bytes s.messages := by
  rw [AionOs.recordResult, s.length_messages, ResultBufs.recordResult]
  by_cases h : s.actionResultCount < 32
  · have hput := @CArray.take_put _ _ s.actionResults s.actionResultCount
      [(s.actionResults.cells.get ⟨s.actionResultCount, by
        rw [s.actionResults.length_eq]; exact h⟩).copy fmt.bytes] h
    rw [dif_pos h, if_neg (by omega)]
    show List.map ResultCell.text (List.take _ _) = _
    rw [List.length_singleton] at hput
    rw [hput, List.map_append, List.map_singleton, ResultCell.text_copy]
    rfl
  · rw [dif_neg h, if_pos (by omega)]

theorem messages_recorded (ms : List CString) (s : ResultBufs) :
    (ms.foldl (fun s m => s.recordResult m) s).messages =
      s.messages ++ (ms.take (32 - s.actionResultCount)).map fun m => m.bytes.take 255 := by
  induction ms generalizing s with
  | nil => rw [List.foldl_nil, List.take_nil, List.map_nil, List.append_nil]
  | cons m ms ih =>
    have hlen := s.length_messages
    rw [List.foldl_cons, ih, messages_recordResult, AionOs.recordResult, hlen, ResultBufs.recordResult]
    by_cases h : s.actionResultCount < 32
    · have hroom : 32 - s.actionResultCount = (32 - (s.actionResultCount + 1)) + 1 := by omega
      rw [if_neg (by omega), dif_pos h, hroom, List.take_succ_cons, List.map_cons, List.append_assoc,
        List.singleton_append]
    · have hroom : 32 - s.actionResultCount = 0 := by omega
      rw [if_pos (by omega), dif_neg h, hroom, List.take_zero, List.take_zero]

/-! ### The loop -/

def lines (ms : List (List U8)) : List U8 := ms.flatMap resultLine

theorem lines_cons (m : List U8) (ms : List (List U8)) : lines (m :: ms) = resultLine m ++ lines ms := rfl

theorem length_resultLine (m : List U8) : (resultLine m).length = 10 + m.length := by
  have hword : (ascii "[RESULT] ").length = 9 := by decide
  rw [resultLine, List.length_append, List.length_append, hword, List.length_singleton]
  omega

theorem lines_ne_zero {ms : List (List U8)} (h : ∀ m ∈ ms, ∀ b ∈ m, b ≠ 0#8) : ∀ b ∈ lines ms, b ≠ 0#8 := by
  have hword : ∀ b ∈ ascii "[RESULT] ", b ≠ 0#8 := by decide +kernel
  intro b hb
  obtain ⟨m, hm, hb⟩ := List.mem_flatMap.mp hb
  rw [resultLine, List.mem_append, List.mem_append, List.mem_singleton] at hb
  rcases hb with (hb | hb) | rfl
  · exact hword b hb
  · exact h m hm b hb
  · decide

theorem snprintfAt_le {buf : CArray U8 8192} {pos : Nat} (h : pos ≤ 8192) (text : List U8) :
    snprintfAt buf pos text = if pos = 8192 then some buf
      else buf.store pos (text.take (8191 - pos) ++ [0#8]) := by
  have hsize : (8192 - BitVec.ofNat 64 pos).toNat = 8192 - pos := by
    rw [BitVec.toNat_sub, BitVec.toNat_ofNat, show (8192 : BitVec 64).toNat = 8192 from rfl]
    omega
  rw [snprintfAt, hsize, show 8192 - pos - 1 = 8191 - pos by omega]
  exact if_congr (by omega) rfl rfl

theorem snprintfAt_fits {buf : CArray U8 8192} {pos : Nat} {text : List U8} (h : pos + text.length ≤ 8191) :
    ∃ b, snprintfAt buf pos text = some b ∧
      ∃ rest, b.cells = buf.cells.take pos ++ (text ++ 0#8 :: rest) := by
  have hlen : pos + (text ++ [0#8]).length ≤ 8192 := by
    rw [List.length_append, List.length_singleton]
    omega
  refine ⟨buf.put pos (text ++ [0#8]) hlen, ?_, buf.cells.drop (pos + (text ++ [0#8]).length), ?_⟩
  · rw [snprintfAt_le (by omega), if_neg (by omega), List.take_of_length_le (by omega)]
    exact buf.store_nat hlen
  · show buf.cells.take pos ++ (text ++ [0#8] ++ _) = _
    rw [List.append_assoc, List.singleton_append]

/-- **What the loop leaves** if all of the text fits. -/
theorem printResults_fits {buf : CArray U8 8192} {pos : Nat} {ms : List (List U8)}
    (h : pos + (lines ms).length ≤ 8191) : ∃ b, printResults buf pos ms = some b ∧
      ((ms = [] ∧ b = buf) ∨ ∃ rest, b.cells = buf.cells.take pos ++ (lines ms ++ 0#8 :: rest)) := by
  induction ms generalizing buf pos with
  | nil => exact ⟨buf, rfl, .inl ⟨rfl, rfl⟩⟩
  | cons m ms ih =>
    rw [lines_cons, List.length_append] at h
    obtain ⟨b, hb, rest, hcells⟩ := @snprintfAt_fits buf pos (resultLine m) (by omega)
    obtain ⟨c, hc, hleft⟩ := @ih b (pos + (resultLine m).length) (by omega)
    have hfront : b.cells.take (pos + (resultLine m).length) = buf.cells.take pos ++ resultLine m := by
      have hlen : (buf.cells.take pos ++ resultLine m).length = pos + (resultLine m).length := by
        rw [List.length_append, List.length_take, buf.length_eq]
        omega
      rw [hcells, ← List.append_assoc, ← hlen, List.take_left]
    refine ⟨c, by rw [printResults, hb, Option.bind_some, hc], .inr ?_⟩
    rcases hleft with ⟨rfl, rfl⟩ | ⟨rest', hcells'⟩
    · exact ⟨rest, by rw [hcells, lines_cons]; simp [lines]⟩
    · exact ⟨rest', by rw [hcells', hfront, lines_cons]; simp only [List.append_assoc]⟩

/-- The buffer always holds a string. -/
theorem printResults_zero {buf : CArray U8 8192} {pos : Nat} {ms : List (List U8)} {b : CArray U8 8192}
    (hzero : 0#8 ∈ buf.cells) (h : printResults buf pos ms = some b) : 0#8 ∈ b.cells := by
  induction ms generalizing buf pos with
  | nil =>
    cases h
    exact hzero
  | cons m ms ih =>
    obtain ⟨c, hc, hb⟩ := Option.bind_eq_some_iff.mp h
    refine ih ?_ hb
    rw [snprintfAt] at hc
    split at hc
    · cases hc
      exact hzero
    · by_cases hin : pos + ((resultLine m).take ((8192 - BitVec.ofNat 64 pos).toNat - 1) ++ [0#8]).length ≤ 8192
      · rw [buf.store_nat hin] at hc
        cases hc
        exact buf.mem_put hin (List.mem_append_right _ (List.mem_singleton_self _))
      · rw [buf.store_eq_none (by omega)] at hc
        cases hc

/-! ### The room in the buffer -/

/-- **The loop stays inside** exactly if `pos` does at each iteration. -/
theorem printResults_isSome {buf : CArray U8 8192} {pos : Nat} {ms : List (List U8)}
    (hpos : pos + (lines ms).length < 2 ^ 64) :
    (printResults buf pos ms).isSome ↔ ∀ p ∈ positions pos ms, p ≤ 8192 := by
  induction ms generalizing buf pos with
  | nil => simp [printResults, positions]
  | cons m ms ih =>
    rw [lines_cons, List.length_append] at hpos
    rw [printResults, positions, List.forall_mem_cons]
    by_cases h : pos ≤ 8192
    · obtain ⟨b, hb⟩ : ∃ b, snprintfAt buf pos (resultLine m) = some b := by
        rw [snprintfAt_le h]
        split
        · exact ⟨buf, rfl⟩
        · refine ⟨_, buf.store_nat ?_⟩
          rw [List.length_append, List.length_take, List.length_singleton]
          omega
      rw [hb, Option.bind_some, ih (by omega), and_iff_right h]
    · -- the difference has wrapped, and the line is written behind the buffer
      have hnone : snprintfAt buf pos (resultLine m) = none := by
        have hsize : (8192 - BitVec.ofNat 64 pos).toNat ≠ 0 := by
          rw [BitVec.toNat_sub, BitVec.toNat_ofNat, show (8192 : BitVec 64).toNat = 8192 from rfl]
          omega
        rw [snprintfAt]
        exact (if_neg hsize).trans (buf.store_eq_none (by omega))
      rw [hnone]
      exact ⟨fun hs => absurd hs (by simp), fun hs => absurd hs.1 h⟩

/-- The last iteration is the furthest one. -/
theorem positions_le {pos : Nat} {ms : List (List U8)} (hpos : pos ≤ 8192) :
    (∀ p ∈ positions pos ms, p ≤ 8192) ↔ pos + (lines ms.dropLast).length ≤ 8192 := by
  induction ms generalizing pos with
  | nil => simpa [positions, lines] using hpos
  | cons m ms ih =>
    rw [positions, List.forall_mem_cons, and_iff_right hpos]
    cases ms with
    | nil => simpa [positions, lines] using hpos
    | cons m' ms =>
      have hdrop : (m :: m' :: ms).dropLast = m :: (m' :: ms).dropLast := rfl
      rw [hdrop, lines_cons, List.length_append, ← Nat.add_assoc]
      by_cases h : pos + (resultLine m).length ≤ 8192
      · exact ih h
      · refine ⟨fun hall => absurd (hall _ List.mem_cons_self) h, fun hle => absurd hle (by omega)⟩

theorem length_lines (ms : List (List U8)) : (lines ms).length = (ms.map fun m => 10 + m.length).sum := by
  induction ms with
  | nil => rfl
  | cons m ms ih => rw [lines_cons, List.length_append, length_resultLine, ih, List.map_cons, List.sum_cons]

theorem ResultBufs.length_le (s : ResultBufs) : ∀ m ∈ s.messages, m.length ≤ 255 := by
  intro m hm
  obtain ⟨c, _, rfl⟩ := List.mem_map.mp hm
  have hzero : c.bytes.take 255 ++ 0#8 :: [] = c.bytes := by
    rw [show ([0#8] : List U8) = c.bytes.drop 255 from c.ends.symm, List.take_append_drop]
  have hlen : (c.bytes.take 255).length = 255 := by
    rw [List.length_take, c.length_eq]
    rfl
  rw [ResultCell.text, cstr, ← hzero, List.takeWhile_append]
  split
  · rw [List.takeWhile_cons_of_neg (by simp), List.append_nil, hlen]
  · exact (List.takeWhile_prefix _).length_le.trans hlen.le

theorem ResultBufs.length_lines_le (s : ResultBufs) : (lines s.messages).length ≤ 32 * 265 := by
  have hline : ∀ k ∈ s.messages.map fun m => 10 + m.length, k ≤ 265 := by
    intro k hk
    obtain ⟨m, hm, rfl⟩ := List.mem_map.mp hk
    have hm := s.length_le m hm
    omega
  have hall := List.sum_le_card_nsmul _ 265 hline
  rw [List.length_map, s.length_messages, smul_eq_mul] at hall
  rw [length_lines]
  exact hall.trans (Nat.mul_le_mul_right _ s.le)

/-- `pos` is at most `sizeof(buf)` at each iteration, and nothing is written outside. -/
def ResultBufs.Inside (s : ResultBufs) : Prop :=
  (∀ pos ∈ positions 0 s.messages, pos ≤ 8192) ∧ (actionGetResultsStr s).isSome

theorem inside_iff (s : ResultBufs) : s.Inside ↔ (lines s.messages.dropLast).length ≤ 8192 := by
  have hlen := s.length_lines_le
  have hloop := @printResults_isSome s.buf 0 s.messages (by omega)
  have hlast := @positions_le 0 s.messages (by omega)
  rw [Nat.zero_add] at hlast
  rw [ResultBufs.Inside, actionGetResultsStr, Option.isSome_map, hloop, and_self, hlast]

/-- No results yet, whatever is left in the cells and in the buffer. -/
def ResultBufs.cleared (s : ResultBufs) : ResultBufs := { s with actionResultCount := 0, le := Nat.zero_le _ }

/-- **The room for the results.**  From every state without results, for every sequence of
messages: the loop over what was recorded stays inside the buffer if and only if the lines
of all results but the last have at most 8192 characters. -/
theorem results_inside_iff (s : ResultBufs) (ms : List CString) :
    (ms.foldl (fun s m => s.recordResult m) s.cleared).Inside ↔
      ((ms.take 32).map fun m => 10 + min 255 m.bytes.length).dropLast.sum ≤ 8192 := by
  have hmessages : (ms.foldl (fun s m => s.recordResult m) s.cleared).messages =
      (ms.take 32).map fun m => m.bytes.take 255 := messages_recorded ms s.cleared
  rw [inside_iff, hmessages, length_lines, ← List.map_dropLast, ← List.map_dropLast, List.map_map]
  have hsame : ((fun m : List U8 => 10 + m.length) ∘ fun m : CString => m.bytes.take 255) =
      fun m => 10 + min 255 m.bytes.length := by
    funext m
    rw [Function.comp_apply, List.length_take]
  rw [hsame]

def fullMessage : CString where
  bytes := List.replicate 255 (charByte 'x')
  ne_zero := fun b hb => by
    rw [(List.mem_replicate.mp hb).2]
    decide

/-- 32 results of 255 characters: the last line is written behind the buffer. -/
theorem results_overflow :
    ¬ ((List.replicate 32 fullMessage).foldl (fun s m => s.recordResult m) ResultBufs.start.cleared).Inside := by
  have hmessages : ((List.replicate 32 fullMessage).foldl (fun s m => s.recordResult m)
      ResultBufs.start.cleared).messages = List.replicate 32 (fullMessage.bytes.take 255) := by
    have hall := messages_recorded (List.replicate 32 fullMessage) ResultBufs.start.cleared
    have hcount : 32 - ResultBufs.start.cleared.actionResultCount = 32 := rfl
    rw [hcount, List.take_of_length_le (by rw [List.length_replicate]), List.map_replicate] at hall
    exact hall
  have hlen : (fullMessage.bytes.take 255).length = 255 := by
    rw [List.length_take, fullMessage, List.length_replicate]
    rfl
  rw [inside_iff, hmessages, length_lines, List.dropLast_replicate, List.map_replicate, hlen,
    List.sum_replicate]
  decide

/-! ### Runs -/

inductive ResultOp where
  | record (fmt : CString)
  | get

/-- The three objects, none after a write outside, and what the readers were told so far. -/
structure ResultLife where
  bufs : Option ResultBufs
  /-- What was recorded since the last call of the reader. -/
  pending : List CString
  /-- An earlier call had results. -/
  delivered : Bool

def ResultLife.step (l : ResultLife) : ResultOp → ResultLife
  | .record fmt => { l with bufs := l.bufs.map fun s => s.recordResult fmt, pending := l.pending ++ [fmt] }
  | .get =>
    { bufs := l.bufs.bind fun s => (actionGetResultsStr s).map Prod.snd
      pending := []
      delivered := l.delivered || !l.pending.isEmpty }

def resultMachine : Machine ResultLife ResultOp := ⟨ResultLife.step, fun _ _ => True⟩

def ResultLife.start : ResultLife := ⟨some ResultBufs.start, [], false⟩

/-- One line for each of the first 32 messages since the last call. -/
def ResultLife.expected (l : ResultLife) : List U8 := lines ((l.pending.take 32).map fun m => m.bytes.take 255)

/-- The reader gets one line for each message, and nothing else. -/
def ResultLife.Delivers (l : ResultLife) : Prop :=
  ∃ s r, l.bufs = some s ∧ actionGetResultsStr s = some r ∧ r.1 = l.expected

/-- There is something new, or there never was; and it fits the buffer. -/
def ResultLife.Fresh (l : ResultLife) : Prop :=
  (l.pending ≠ [] ∨ l.delivered = false) ∧ l.expected.length ≤ 8191

/-- The cells hold what is pending, and the buffer is empty until results were read. -/
structure ResultLife.Tracks (l : ResultLife) (s : ResultBufs) : Prop where
  bufs : l.bufs = some s
  messages : s.messages = (l.pending.take 32).map fun m => m.bytes.take 255
  zero : 0#8 ∈ s.buf.cells
  empty : cstr s.buf.cells = [] ↔ l.delivered = false

theorem tracks_start : ResultLife.start.Tracks ResultBufs.start where
  bufs := rfl
  messages := rfl
  zero := List.mem_replicate.mpr ⟨by decide, rfl⟩
  empty := by
    have hcells : ResultBufs.start.buf.cells = 0#8 :: List.replicate 8191 0 := List.replicate_succ
    rw [hcells, cstr, List.takeWhile_cons_of_neg (by simp)]
    exact ⟨fun _ => rfl, fun _ => rfl⟩

theorem length_cstr_lt {n : Nat} {buf : CArray U8 n} (h : 0#8 ∈ buf.cells) : (cstr buf.cells).length < n := by
  have hle := (List.takeWhile_prefix (l := buf.cells) (· != 0#8)).length_le
  rw [buf.length_eq] at hle
  refine Nat.lt_of_le_of_ne hle fun heq => ?_
  have hwhole : cstr buf.cells = buf.cells :=
    (List.takeWhile_prefix _).eq_of_length (by rw [buf.length_eq]; exact heq)
  rw [← hwhole] at h
  have := List.mem_takeWhile_imp h
  simp at this

/-- What a call returns when there is nothing, and when there is something that fits. -/
theorem get_cases {s : ResultBufs} (h : (lines s.messages).length ≤ 8191) :
    ∃ b, actionGetResultsStr s = some (cstr b.cells, { s with actionResultCount := 0, le := Nat.zero_le _, buf := b }) ∧
      ((s.messages = [] ∧ b = s.buf) ∨ (s.messages ≠ [] ∧ cstr b.cells = lines s.messages)) := by
  obtain ⟨b, hb, hleft⟩ := @printResults_fits s.buf 0 s.messages (by omega)
  refine ⟨b, by rw [actionGetResultsStr, hb]; rfl, ?_⟩
  by_cases hnil : s.messages = []
  · rcases hleft with ⟨_, hsame⟩ | ⟨rest, _⟩
    · exact .inl ⟨hnil, hsame⟩
    · rw [hnil] at hb
      exact .inl ⟨hnil, (Option.some.inj hb).symm⟩
  · rcases hleft with ⟨hno, _⟩ | ⟨rest, hcells⟩
    · exact absurd hno hnil
    · rw [List.take_zero, List.nil_append] at hcells
      exact .inr ⟨hnil, by rw [hcells, cstr_append_zero (lines_ne_zero s.ne_zero)]⟩

theorem ResultLife.Tracks.expected {l : ResultLife} {s : ResultBufs} (h : l.Tracks s) :
    l.expected = lines s.messages := by
  rw [ResultLife.expected, h.messages]

theorem ResultLife.Tracks.messages_nil {l : ResultLife} {s : ResultBufs} (h : l.Tracks s) :
    s.messages = [] ↔ l.pending = [] := by
  rw [h.messages, List.map_eq_nil_iff, List.take_eq_nil_iff]
  exact ⟨fun hc => hc.resolve_left (by omega), .inr⟩

/-- **One call of the reader.** -/
theorem delivers_iff {l : ResultLife} {s : ResultBufs} (h : l.Tracks s) : l.Delivers ↔ l.Fresh := by
  have hget : l.Delivers ↔ ∃ r, actionGetResultsStr s = some r ∧ r.1 = lines s.messages := by
    rw [ResultLife.Delivers, h.bufs, h.expected]
    constructor
    · rintro ⟨_, r, hs, hr⟩
      cases hs
      exact ⟨r, hr⟩
    · rintro ⟨r, hr⟩
      exact ⟨s, r, rfl, hr⟩
  have hnew : l.pending ≠ [] ↔ s.messages ≠ [] := not_congr h.messages_nil.symm
  rw [hget, ResultLife.Fresh, h.expected, hnew]
  by_cases hfits : (lines s.messages).length ≤ 8191
  · obtain ⟨b, hb, hcase⟩ := get_cases hfits
    rw [hb, and_iff_left hfits]
    rcases hcase with ⟨hnil, rfl⟩ | ⟨hne, hlines⟩
    · rw [hnil, or_iff_right (not_not.mpr rfl), ← h.empty]
      constructor
      · rintro ⟨r, hr, hempty⟩
        cases hr
        exact hempty
      · exact fun hempty => ⟨_, rfl, hempty⟩
    · exact ⟨fun _ => .inl hne, fun _ => ⟨_, rfl, hlines⟩⟩
  · -- the string would be longer than the buffer
    refine ⟨fun ⟨r, hr, hlines⟩ => ?_, fun hc => absurd hc.2 hfits⟩
    obtain ⟨b, hb, rfl⟩ := Option.map_eq_some_iff.mp hr
    have hshort := length_cstr_lt (printResults_zero h.zero hb)
    rw [show cstr b.cells = lines s.messages from hlines] at hshort
    omega

theorem tracks_record {l : ResultLife} {s : ResultBufs} (h : l.Tracks s) (fmt : CString) :
    (l.step (.record fmt)).Tracks (s.recordResult fmt) := by
  have hbuf : (s.recordResult fmt).buf = s.buf := by
    rw [ResultBufs.recordResult]
    split <;> rfl
  refine ⟨by rw [ResultLife.step, h.bufs]; rfl, ?_, hbuf ▸ h.zero, hbuf ▸ h.empty⟩
  have hlen : s.messages.length = min 32 l.pending.length := by
    rw [h.messages, List.length_map, List.length_take]
  rw [messages_recordResult, AionOs.recordResult, hlen, h.messages]
  show _ = ((l.pending ++ [fmt]).take 32).map _
  by_cases hfull : l.pending.length ≥ 32
  · rw [if_pos (by omega), List.take_append_of_le_length hfull]
  · have hold : l.pending.take 32 = l.pending := List.take_of_length_le (by omega)
    have hnew : (l.pending ++ [fmt]).take 32 = l.pending ++ [fmt] := List.take_of_length_le (by
      rw [List.length_append, List.length_singleton]
      omega)
    rw [if_neg (by omega), hold, hnew, List.map_append]
    rfl

theorem tracks_get {l : ResultLife} {s : ResultBufs} (h : l.Tracks s) (hfresh : l.Fresh) :
    ∃ s', (l.step .get).Tracks s' := by
  rw [ResultLife.Fresh, h.expected] at hfresh
  obtain ⟨b, hb, hcase⟩ := get_cases hfresh.2
  have hloop : printResults s.buf 0 s.messages = some b := by
    obtain ⟨c, hc, hpair⟩ := Option.map_eq_some_iff.mp hb
    rw [hc]
    exact congrArg (some ·.2.buf) hpair
  refine ⟨{ s with actionResultCount := 0, le := Nat.zero_le _, buf := b },
    by rw [ResultLife.step, h.bufs, Option.bind_some, hb]; rfl, rfl, printResults_zero h.zero hloop, ?_⟩
  show cstr b.cells = [] ↔ (l.delivered || !l.pending.isEmpty) = false
  rcases hcase with ⟨hnil, rfl⟩ | ⟨hne, hlines⟩
  · rw [h.messages_nil.mp hnil, List.isEmpty_nil, Bool.not_true, Bool.or_false]
    exact h.empty
  · have hpending : l.pending ≠ [] := fun hc => hne (h.messages_nil.mpr hc)
    have hempty : l.pending.isEmpty = false := by simpa using hpending
    rw [hlines, hempty, Bool.not_false, Bool.or_true]
    refine ⟨fun hc => ?_, fun hc => by cases hc⟩
    obtain ⟨m, ms, hms⟩ := List.exists_cons_of_ne_nil hne
    rw [hms, lines_cons, List.append_eq_nil_iff] at hc
    have := length_resultLine m
    rw [hc.1, List.length_nil] at this
    omega

/-- **Results are delivered once.**  For every interleaving of records and readers: every reader
gets the lines of the first 32 messages since the last one, if and only if each time there is
something new, or never was, and its lines have at most 8191 characters. -/
theorem results_delivered_iff (ops : List ResultOp) :
    (∀ pre op, pre ++ [op] <+: ops → op = .get → (resultMachine.run ResultLife.start pre).Delivers) ↔
      ∀ pre op, pre ++ [op] <+: ops → op = .get → (resultMachine.run ResultLife.start pre).Fresh := by
  refine Machine.forall_steps_iff (M := resultMachine) (I := fun l => ∃ s, l.Tracks s)
    (P := fun l op => op = .get → l.Delivers) (Q := fun l op => op = .get → l.Fresh) ?_ ?_ ops
    ResultLife.start ⟨_, tracks_start⟩ (Machine.legal_of_forall _ (fun _ _ => trivial) ops _)
  · rintro l op ⟨s, h⟩ _
    exact imp_congr_right fun _ => delivers_iff h
  · rintro l op ⟨s, h⟩ _ hfresh
    cases op with
    | record fmt => exact ⟨_, tracks_record h fmt⟩
    | get => exact tracks_get h (hfresh rfl)

def stopResult : CString := ⟨ascii "AUDIO_STOP: ok", by decide⟩

/-- A result, and two readers. -/
def againOps : List ResultOp := [.record stopResult, .get, .get]

/-- The second reader gets the line again. -/
theorem results_again : ¬ ∀ pre op, pre ++ [op] <+: againOps → op = .get →
    (resultMachine.run ResultLife.start pre).Delivers := by
  have hfresh : (ResultLife.start.step (.record stopResult)).Fresh := ⟨.inl (List.cons_ne_nil _ _), by decide⟩
  obtain ⟨s, hs⟩ := tracks_get (tracks_record tracks_start stopResult) hfresh
  intro hall
  have hagain := (delivers_iff hs).mp (hall [.record stopResult, .get] .get List.prefix_rfl rfl)
  rcases hagain.1 with hpending | hdelivered
  · exact hpending rfl
  · cases hdelivered

end AionOs
