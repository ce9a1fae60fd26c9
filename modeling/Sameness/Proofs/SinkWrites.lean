import Sameness.Proofs.Loops
import Sameness.Proofs.Spelling

/-!
What comes of writing to a sink.

A sink takes what fits. When that is not all, another attempt is refused, and what comes of it is
for the refusal to say. It does not matter in which pieces the bytes are written.
-/

namespace Sameness

/-- The error that a refusal ends in. After an interruption there is another attempt, so it does not
end in any. -/
def Refusal.error? : Refusal → Option String
  | error text => some text
  | nothing => some Sink.nothingTaken
  | interruption => none

namespace Sink

variable {s : Sink} {a b bytes : ByteArray} {r : Written}

def Fits (s : Sink) (size : Nat) : Prop := s.fitting size = size

instance (s : Sink) (size : Nat) : Decidable (s.Fits size) := inferInstanceAs (Decidable (_ = _))

/-- The sink with as much of the bytes as there is room for. -/
def filled (s : Sink) (bytes : ByteArray) : Sink :=
  { s with
    written := s.written ++ bytes.extract 0 (s.fitting bytes.size)
    room := s.room.map (· - bytes.size) }

/-- What comes of writing some bytes, if anything ever does. -/
def outcome? (s : Sink) (bytes : ByteArray) : Option Written :=
  if s.Fits bytes.size then some (.ok (), s.filled bytes)
  else s.refusal.error?.map fun text => (.error text, s.filled bytes)

/-! ### Bytes in two parts -/

theorem extract_of_le {n : Nat} (h : a.size ≤ n) : a.extract 0 n = a := by
  have hmax : max n a.size = n := Nat.max_eq_left h
  rw [← hmax, ByteArray.extract_zero_max_size]

theorem extract_min (n : Nat) : a.extract 0 (min n a.size) = a.extract 0 n := by
  rcases Nat.le_total a.size n with h | h
  · rw [Nat.min_eq_right h, extract_of_le h, ByteArray.extract_zero_size]
  · rw [Nat.min_eq_left h]

theorem extract_append_of_le {n : Nat} (h : a.size ≤ n) :
    (a ++ b).extract 0 n = a ++ b.extract 0 (n - a.size) := by
  rw [ByteArray.extract_append, extract_of_le h, Nat.zero_sub]

theorem extract_append_of_lt {n : Nat} (h : n < a.size) :
    (a ++ b).extract 0 n = a.extract 0 n := by
  rw [ByteArray.extract_append, Nat.sub_eq_zero_of_le (Nat.le_of_lt h), Nat.zero_sub,
    ByteArray.extract_same, ByteArray.append_empty]

/-! ### Room -/

section

variable {written : ByteArray} {room size : Nat} {refusal : Refusal}

@[simp] theorem fits_unlimited : Fits ⟨written, none, refusal⟩ size := rfl

@[simp] theorem fits_limited : Fits ⟨written, some room, refusal⟩ size ↔ size ≤ room := by
  simp only [Fits, fitting]
  omega

@[simp] theorem filled_unlimited :
    filled ⟨written, none, refusal⟩ bytes = ⟨written ++ bytes, none, refusal⟩ := by
  simp only [filled, fitting, ByteArray.extract_zero_size, Option.map_none]

@[simp] theorem filled_limited :
    filled ⟨written, some room, refusal⟩ bytes =
      ⟨written ++ bytes.extract 0 room, some (room - bytes.size), refusal⟩ := by
  simp only [filled, fitting, extract_min, Option.map_some]

end

theorem fitting_le (s : Sink) (size : Nat) : s.fitting size ≤ size := by
  obtain ⟨written, room | room, refusal⟩ := s
  · exact Nat.le_refl size
  · exact Nat.min_le_right room size

theorem fits_zero (s : Sink) : s.Fits 0 := Nat.le_zero.1 (s.fitting_le 0)

theorem filled_of_full (h : s.fitting bytes.size = 0) : s.filled bytes = s := by
  obtain ⟨written, room | room, refusal⟩ := s
  · obtain rfl := ByteArray.size_eq_zero_iff.1 h
    simp
  · have hroom : room - bytes.size = room := by
      simp only [fitting] at h
      omega
    have hnothing : bytes.extract 0 room = .empty := by
      rw [← extract_min, show min room bytes.size = 0 from h, ByteArray.extract_same]
    simp [hroom, hnothing]

theorem outcome?_of_fits (h : s.Fits bytes.size) :
    s.outcome? bytes = some (.ok (), s.filled bytes) :=
  if_pos h

theorem outcome?_of_not_fits (h : ¬s.Fits bytes.size) :
    s.outcome? bytes = s.refusal.error?.map fun text => (.error text, s.filled bytes) :=
  if_neg h

theorem outcome?_empty (s : Sink) : s.outcome? .empty = some (.ok (), s) := by
  have hnothing : s.Fits ByteArray.empty.size := s.fits_zero
  rw [outcome?_of_fits hnothing, filled_of_full hnothing]

/-- What does not fit leaves no room. -/
theorem fitting_filled (h : ¬s.Fits bytes.size) (size : Nat) :
    (s.filled bytes).fitting size = 0 := by
  obtain ⟨written, room | room, refusal⟩ := s
  · exact absurd fits_unlimited h
  · rw [fits_limited] at h
    simp only [filled_limited, fitting]
    omega

/-- What is behind a part for which there is room, finds the room that is left. -/
theorem outcome?_append_of_fits (h : s.Fits a.size) :
    s.outcome? (a ++ b) = (s.filled a).outcome? b := by
  obtain ⟨written, room | room, refusal⟩ := s
  · simp [outcome?, ByteArray.append_assoc]
  · rw [fits_limited] at h
    have hfits : a.size + b.size ≤ room ↔ b.size ≤ room - a.size := by omega
    simp [outcome?, extract_append_of_le h, extract_of_le h, ByteArray.append_assoc, hfits,
      Nat.sub_add_eq]

/-- Behind a part for which there is no room, nothing is taken. -/
theorem outcome?_append_of_not_fits (h : ¬s.Fits a.size) :
    s.outcome? (a ++ b) = s.refusal.error?.map fun text => (.error text, s.filled a) := by
  obtain ⟨written, room | room, refusal⟩ := s
  · exact absurd fits_unlimited h
  · rw [fits_limited, Nat.not_le] at h
    have hfits : ¬a.size + b.size ≤ room := by omega
    have hroom : room - (a.size + b.size) = room - a.size := by omega
    simp [outcome?, extract_append_of_lt h, hfits, hroom]

/-! ### Attempts -/

theorem returns_writeAll_of_empty (h : bytes.size = 0) :
    (s.writeAll bytes).Returns r ↔ r = (.ok (), s) := by
  have hturn : writeTurn (s, bytes) = .stop (.ok (), s) := by
    rw [writeTurn, if_pos h]
  rw [writeAll, Run.returns_loop_of_stop (Run.returns_pure.2 hturn)]

/-- A sink that is full answers as it refuses, time and again. -/
theorem returns_writeAll_of_full (hfull : s.fitting bytes.size = 0) (h : bytes.size ≠ 0) :
    (s.writeAll bytes).Returns r ↔ ∃ text, s.refusal.error? = some text ∧ r = (.error text, s) := by
  have hattempt : s.attempt bytes = (s.refusal.attempt, s) := by
    rw [attempt, if_pos ⟨hfull, h⟩]
  have hturn : writeTurn (s, bytes) =
      match s.refusal with
      | .error text => .stop (.error text, s)
      | .nothing => .stop (.error nothingTaken, s)
      | .interruption => .again (s, bytes) := by
    rw [writeTurn, if_neg h, hattempt]
    cases s.refusal <;> rfl
  cases hrefusal : s.refusal with
  | error text | nothing =>
    rw [hrefusal] at hturn
    rw [writeAll, Run.returns_loop_of_stop (Run.returns_pure.2 hturn)]
    simp [Refusal.error?]
  | interruption =>
    rw [hrefusal] at hturn
    have hdiverges : (s.writeAll bytes).Diverges :=
      Run.diverges_loop_of_again (Run.returns_pure.2 hturn)
    simp [Refusal.error?, Run.diverges_iff.1 hdiverges]

theorem attempt_of_room (h : s.fitting bytes.size ≠ 0) :
    s.attempt bytes = (.taken (s.fitting bytes.size), s.filled bytes) := by
  have hroom : s.room.map (· - s.fitting bytes.size) = s.room.map (· - bytes.size) := by
    obtain ⟨written, room | room, refusal⟩ := s
    · rfl
    · simp only [fitting, Option.map_some, Option.some.injEq]
      omega
  rw [attempt, if_neg fun hnone => h hnone.1, filled, hroom]

/-- One attempt takes all for which there is room, and another one is refused. -/
theorem returns_writeAll_iff : (s.writeAll bytes).Returns r ↔ s.outcome? bytes = some r := by
  by_cases hsize : bytes.size = 0
  · rw [returns_writeAll_of_empty hsize, ByteArray.size_eq_zero_iff.1 hsize, outcome?_empty,
      Option.some.injEq, eq_comm]
  by_cases hfull : s.fitting bytes.size = 0
  · have hfits : ¬s.Fits bytes.size := fun h => hsize (h.symm.trans hfull)
    rw [returns_writeAll_of_full hfull hsize, outcome?_of_not_fits hfits, filled_of_full hfull,
      Option.map_eq_some_iff]
    simp only [eq_comm]
  let rest := bytes.extract (s.fitting bytes.size) bytes.size
  have hrest : rest.size = bytes.size - s.fitting bytes.size := by
    rw [ByteArray.size_extract, Nat.min_self]
  have hturn : writeTurn (s, bytes) = .again (s.filled bytes, rest) := by
    rw [writeTurn, if_neg hsize, attempt_of_room hfull]
    split <;> simp_all [rest]
  have hfirst : (s.writeAll bytes).Returns r ↔ ((s.filled bytes).writeAll rest).Returns r := by
    rw [writeAll, Run.returns_loop_of_again (Run.returns_pure.2 hturn), writeAll]
  rw [hfirst]
  by_cases hfits : s.Fits bytes.size
  · have hnothing : rest.size = 0 := by
      rw [hrest, hfits, Nat.sub_self]
    rw [returns_writeAll_of_empty hnothing, outcome?_of_fits hfits, Option.some.injEq, eq_comm]
  · have hfitting : s.fitting bytes.size ≤ bytes.size := s.fitting_le bytes.size
    have hsome : rest.size ≠ 0 := by
      rw [hrest, Nat.sub_ne_zero_iff_lt]
      exact Nat.lt_of_le_of_ne hfitting hfits
    rw [returns_writeAll_of_full (fitting_filled hfits _) hsome, outcome?_of_not_fits hfits,
      Option.map_eq_some_iff]
    simp only [eq_comm]
    rfl

theorem returns_write_iff {text : String} :
    (s.write text).Returns r ↔ s.outcome? text.toUTF8 = some r :=
  returns_writeAll_iff

theorem returns_write_unlimited_iff {text : String} :
    ((unlimited bytes).write text).Returns r ↔ r = (.ok (), .unlimited (bytes ++ text.toUTF8)) := by
  simp [returns_write_iff, outcome?, unlimited, eq_comm]

theorem toUTF8_append (s t : String) : (s ++ t).toUTF8 = s.toUTF8 ++ t.toUTF8 :=
  String.toByteArray_append

end Sink

namespace Store

variable {st : Store} {m : Mode} {sink : Sink} {todo : List Piece} {out : List Char}
  {r : Sink.Written}

/-- A turn writes the first part of the first piece, and goes on with what follows it. -/
theorem returns_sinkTurn_of_fits {p : Piece} {t : Run.Turn (Sink × List Piece) Sink.Written}
    (h : sink.Fits (st.expand m p).1.toUTF8.size) :
    (st.sinkTurn m (sink, p :: todo)).Returns t ↔
      t = .again (sink.filled (st.expand m p).1.toUTF8, (st.expand m p).2 ++ todo) := by
  simp only [sinkTurn, Run.returns_bind, Sink.returns_write_iff, Sink.outcome?_of_fits h,
    Option.some.injEq, exists_eq_left', Run.returns_pure]
  exact eq_comm

theorem returns_sinkTurn_of_not_fits {p : Piece} {t : Run.Turn (Sink × List Piece) Sink.Written}
    (h : ¬sink.Fits (st.expand m p).1.toUTF8.size) :
    (st.sinkTurn m (sink, p :: todo)).Returns t ↔ ∃ text, sink.refusal.error? = some text ∧
      t = .stop (.error text, sink.filled (st.expand m p).1.toUTF8) := by
  simp only [sinkTurn, Run.returns_bind, Sink.returns_write_iff, Sink.outcome?_of_not_fits h]
  cases sink.refusal.error? with
  | none => simp
  | some text =>
    simp only [Option.map_some, Option.some.injEq, exists_eq_left', Run.returns_pure]
    exact eq_comm

/-- Pieces are written as their whole text is. -/
theorem returns_loop_sinkTurn_iff (h : st.Spells m todo out) :
    (Run.loop (st.sinkTurn m) (sink, todo)).Returns r ↔
      sink.outcome? (String.ofList out).toUTF8 = some r := by
  -- What the first piece does not leave room for, no later piece is asked about.
  induction h generalizing sink with
  | nil =>
    have hturn : (st.sinkTurn m (sink, [])).Returns (.stop (.ok (), sink)) := Run.returns_pure.2 rfl
    have hnothing : (String.ofList []).toUTF8 = .empty := rfl
    rw [Run.returns_loop_of_stop hturn, hnothing, Sink.outcome?_empty, Option.some.injEq, eq_comm]
  | @cons p todo out h ih =>
    let head : String := (st.expand m p).1
    have htext : (String.ofList (head.toList ++ out)).toUTF8 =
        head.toUTF8 ++ (String.ofList out).toUTF8 := by
      rw [String.ofList_append, String.ofList_toList, Sink.toUTF8_append]
    rw [htext, Run.returns_loop]
    by_cases hfits : sink.Fits head.toUTF8.size
    · simp only [returns_sinkTurn_of_fits hfits, reduceCtorEq, false_or, Run.Turn.again.injEq,
        exists_eq_left, ih, Sink.outcome?_append_of_fits hfits, head]
    · simp only [returns_sinkTurn_of_not_fits hfits, reduceCtorEq, and_false, exists_false,
        false_and, or_false, Run.Turn.stop.injEq, Sink.outcome?_append_of_not_fits hfits,
        Option.map_eq_some_iff, head]
      simp only [eq_comm]

/-- A value that has a text is displayed as the text is written. -/
theorem returns_displayTo_iff_write {v : Value} {text : String} (h : (st.display v).Returns text) :
    (st.displayTo sink v).Returns r ↔ (sink.write text).Returns r := by
  rw [displayTo, returns_loop_sinkTurn_iff (returns_print_iff.1 h), String.ofList_toList,
    Sink.returns_write_iff]

/-- With room without end, nothing but the end of the pieces ends the loop. -/
theorem exists_spells_of_loop (hroom : sink.room = none)
    (h : (Run.loop (st.sinkTurn m) (sink, todo)).Returns r) : ∃ out, st.Spells m todo out := by
  refine Run.loop_induction (motive := fun left _ => left.1.room = none →
    ∃ out, st.Spells m left.2 out) ?stop ?again h hroom
  case stop =>
    rintro ⟨sink, _ | ⟨p, todo⟩⟩ r hstop hroom
    · exact ⟨[], .nil⟩
    · obtain ⟨written, _, refusal⟩ := sink
      cases hroom
      cases (returns_sinkTurn_of_fits Sink.fits_unlimited).1 hstop
  case again =>
    rintro ⟨sink, _ | ⟨p, todo⟩⟩ left r hagain ih hroom
    · cases Run.returns_pure.1 hagain
    · obtain ⟨written, _, refusal⟩ := sink
      cases hroom
      cases (returns_sinkTurn_of_fits Sink.fits_unlimited).1 hagain
      obtain ⟨out, hout⟩ := ih rfl
      exact ⟨_, .cons hout⟩

/-- An unlimited sink takes the display text of a value, and nothing else, whenever there is one. -/
theorem returns_displayTo_iff {bytes : ByteArray} {v : Value} :
    (st.displayTo (.unlimited bytes) v).Returns r ↔
      ∃ text, (st.display v).Returns text ∧ r = (.ok (), .unlimited (bytes ++ text.toUTF8)) := by
  constructor
  · intro h
    obtain ⟨out, hout⟩ := exists_spells_of_loop rfl h
    have htext : (st.display v).Returns (String.ofList out) := by
      rw [display, returns_print_iff, String.toList_ofList]
      exact hout
    have hwrite := (returns_displayTo_iff_write htext).1 h
    exact ⟨_, htext, Sink.returns_write_unlimited_iff.1 hwrite⟩
  · rintro ⟨text, htext, hr⟩
    exact (returns_displayTo_iff_write htext).2 (Sink.returns_write_unlimited_iff.2 hr)

end Store

end Sameness
