import Scripting.Machine

/-!
# Sinks that take a text in parts

* `Sink.Fills s bytes fault s'` : a sink is given bytes till it has taken them all or refuses,
  where it takes any number of them at a time for which it has room;
* `Sink.Fills.append` : texts that are taken one behind the other;
* `Sink.fills_iff` : whatever the parts are, it comes to `Sink.write` and `Sink.refusal?`.
-/

namespace Scripting.Sink

set_option autoImplicit false

/-- The sink that has taken bytes for which it had room. -/
def take (s : Sink) (bytes : ByteArray) : Sink :=
  { s with written := s.written ++ bytes, room := s.room.map (· - bytes.size) }

/-- Gives bytes to a sink, some at a time, till it has taken them all or refuses to take any. -/
inductive Fills : Sink → ByteArray → Option IoFault → Sink → Prop
  | done {s : Sink} : Fills s .empty none s
  | part {s s' : Sink} {chunk rest : ByteArray} {fault : Option IoFault}
      (nonempty : 0 < chunk.size) (fits : ∀ room ∈ s.room, chunk.size ≤ room)
      (others : Fills (s.take chunk) rest fault s') : Fills s (chunk ++ rest) fault s'
  | refused {s : Sink} {bytes : ByteArray} (nonempty : 0 < bytes.size) (full : s.room = some 0) :
      Fills s bytes (some s.refusal) s

namespace Fills

variable {s s' s'' : Sink} {a b : ByteArray} {fault : Option IoFault}

/-- Texts that are taken one behind the other. -/
theorem append (h : Fills s a none s') (h' : Fills s' b fault s'') :
    Fills s (a ++ b) fault s'' := by
  generalize hnone : (none : Option IoFault) = none' at h
  induction h with
  | done => rwa [ByteArray.empty_append]
  | part nonempty fits _ ih =>
    rw [ByteArray.append_assoc]
    exact .part nonempty fits (ih h' hnone)
  | refused => cases hnone

end Fills

variable {s s' : Sink} {bytes : ByteArray} {fault : Option IoFault}

/-- The first bytes of a text that has no more. -/
theorem extract_of_size_le {bytes : ByteArray} {count : Nat} (h : bytes.size ≤ count) :
    bytes.extract 0 count = bytes := by
  rw [← Nat.max_eq_left h, ByteArray.extract_zero_max_size]

theorem size_extract_of_le {bytes : ByteArray} {count : Nat} (h : count ≤ bytes.size) :
    (bytes.extract 0 count).size = count := by
  rw [ByteArray.size_extract, Nat.min_eq_left h, Nat.sub_zero]

theorem write_of_room_eq_none (h : s.room = none) (bytes : ByteArray) :
    s.write bytes = { s with written := s.written ++ bytes } := by
  simp only [write, fitting, h, Option.map_none]

theorem refusal?_of_room_eq_none (h : s.room = none) (bytes : ByteArray) :
    s.refusal? bytes = none := by
  simp only [refusal?, h]

theorem write_of_fits (h : ∀ room ∈ s.room, bytes.size ≤ room) : s.write bytes = s.take bytes := by
  cases hroom : s.room with
  | none => simp only [write, take, fitting, hroom]
  | some room =>
    simp only [write, take, fitting, hroom, extract_of_size_le (h room hroom)]

theorem refusal?_eq_none_iff : s.refusal? bytes = none ↔ ∀ room ∈ s.room, bytes.size ≤ room := by
  cases hroom : s.room with
  | none => simp [refusal?, hroom]
  | some room =>
    simp only [refusal?, hroom, ite_eq_right_iff, reduceCtorEq, imp_false, Nat.not_lt,
      Option.mem_def, Option.some.injEq, forall_eq']

/-- What is written behind bytes that are taken. -/
theorem write_take (s : Sink) (chunk rest : ByteArray) (fits : ∀ room ∈ s.room, chunk.size ≤ room) :
    (s.take chunk).write rest = s.write (chunk ++ rest) ∧
      (s.take chunk).refusal? rest = s.refusal? (chunk ++ rest) := by
  cases hroom : s.room with
  | none =>
    simp only [write, refusal?, take, fitting, hroom, Option.map_none, ByteArray.append_assoc,
      and_self]
  | some room =>
    have hle := fits room hroom
    have hlt : room - chunk.size < rest.size ↔ room < chunk.size + rest.size := by omega
    simp only [write, refusal?, take, fitting, hroom, Option.map_some, ByteArray.append_assoc,
      ByteArray.extract_append, ByteArray.size_append, extract_of_size_le hle, Nat.zero_sub,
      Nat.sub_sub, hlt, and_self]

theorem write_empty (s : Sink) : s.refusal? .empty = none ∧ s.write .empty = s := by
  have fits : ∀ room ∈ s.room, ByteArray.empty.size ≤ room := fun room _ => Nat.zero_le room
  refine ⟨refusal?_eq_none_iff.2 fits, ?_⟩
  rw [write_of_fits fits]
  cases s
  simp [take]

/-- Bytes for which there is room are taken. -/
theorem fills_of_fits (fits : ∀ room ∈ s.room, bytes.size ≤ room) :
    Fills s bytes none (s.take bytes) := by
  rcases Nat.eq_zero_or_pos bytes.size with hzero | hpos
  · obtain rfl := ByteArray.size_eq_zero_iff.1 hzero
    rw [← write_of_fits fits, s.write_empty.2]
    exact .done
  · have hpart := Fills.part hpos fits .done
    rwa [ByteArray.append_empty] at hpart

/-- Of bytes for which there is no room, as many are taken as fit, and then no more. -/
theorem fills_of_lt {room : Nat} (hroom : s.room = some room) (hlt : room < bytes.size) :
    Fills s bytes (some s.refusal) (s.take (bytes.extract 0 room)) := by
  have hsize := size_extract_of_le (Nat.le_of_lt hlt)
  have hrest : 0 < (bytes.extract room bytes.size).size := by
    rw [ByteArray.size_extract, Nat.min_self]
    exact Nat.sub_pos_of_lt hlt
  have hfull : (s.take (bytes.extract 0 room)).room = some 0 := by
    rw [take, hroom, hsize, Option.map_some, Nat.sub_self]
  have hfits : ∀ room' ∈ s.room, (bytes.extract 0 room).size ≤ room' := by
    rintro room' hroom'
    cases hroom.symm.trans hroom'
    exact Nat.le_of_eq hsize
  have hrefused := (fills_of_fits hfits).append (.refused hrest hfull)
  rwa [← ByteArray.extract_eq_extract_append_extract room (Nat.zero_le _) (Nat.le_of_lt hlt),
    ByteArray.extract_zero_size] at hrefused

theorem write_of_lt {room : Nat} (hroom : s.room = some room) (hlt : room < bytes.size) :
    s.refusal? bytes = some s.refusal ∧ s.write bytes = s.take (bytes.extract 0 room) := by
  have hsize := size_extract_of_le (Nat.le_of_lt hlt)
  simp only [refusal?, write, take, fitting, hroom, hlt, if_true, hsize, Option.map_some,
    Nat.sub_self, Nat.sub_eq_zero_of_le (Nat.le_of_lt hlt), and_self]

/-- A sink can be given any bytes. -/
theorem fills (s : Sink) (bytes : ByteArray) :
    Fills s bytes (s.refusal? bytes) (s.write bytes) := by
  have htaken (fits : ∀ room ∈ s.room, bytes.size ≤ room) :
      Fills s bytes (s.refusal? bytes) (s.write bytes) := by
    rw [refusal?_eq_none_iff.2 fits, write_of_fits fits]
    exact fills_of_fits fits
  cases hroom : s.room with
  | none => exact htaken fun room hroom' => nomatch hroom.symm.trans hroom'
  | some room =>
    rcases Nat.lt_or_ge room bytes.size with hlt | hle
    · obtain ⟨hrefusal, hwrite⟩ := write_of_lt hroom hlt
      rw [hrefusal, hwrite]
      exact fills_of_lt hroom hlt
    · exact htaken fun room' hroom' => Option.some.inj (hroom.symm.trans hroom') ▸ hle

/-- Whatever the parts are in which a sink takes bytes, it takes as many as it has room for, and it
refuses if there are more. -/
theorem fills_iff :
    Fills s bytes fault s' ↔ fault = s.refusal? bytes ∧ s' = s.write bytes := by
  constructor
  · intro h
    induction h with
    | @done s => exact ⟨s.write_empty.1.symm, s.write_empty.2.symm⟩
    | part nonempty fits _ ih =>
      obtain ⟨hwrite, hrefusal⟩ := write_take _ _ _ fits
      rw [← hwrite, ← hrefusal]
      exact ih
    | @refused s bytes nonempty full =>
      refine ⟨by simp only [refusal?, full, nonempty, if_true], ?_⟩
      cases s
      cases full
      simp [write, fitting]
  · rintro ⟨rfl, rfl⟩
    exact fills s bytes

end Scripting.Sink
