import Lox.Proofs.Transcript
import Lox.Session
/-!
# Sinks with limited room

A run on a sink that takes only so many bytes is the run on a sink without a limit, cut short: the same bytes are
written as far as they fit, and the run goes on in the same way up to the line that does not fit. There it ends, with
the failure of the output as the only thing that is reported.
-/

namespace Lox

/-! ### Writing lines -/

private theorem extract_of_size_le {bytes : ByteArray} {n : Nat} (h : bytes.size ≤ n) : bytes.extract 0 n = bytes := by
  apply ByteArray.ext
  rw [ByteArray.data_extract]
  exact Array.extract_eq_self_of_le h

namespace Printed

def allBytes : List Printed → ByteArray
  | [] => .empty
  | line :: lines => line.bytes ++ allBytes lines

theorem size_allBytes_cons (line : Printed) (lines : List Printed) :
    (allBytes (line :: lines)).size = line.bytes.size + (allBytes lines).size := by
  rw [allBytes, ByteArray.size_append]

end Printed

namespace Sink

open Printed (allBytes)

variable {written : ByteArray} {lines : List Printed}

theorem writeLines_unlimited (written : ByteArray) (lines : List Printed) :
    writeLines ⟨written, none⟩ lines = (⟨written ++ allBytes lines, none⟩, none) := by
  induction lines generalizing written with
  | nil => rw [writeLines, allBytes, ByteArray.append_empty]
  | cons line lines ih =>
    show writeLines ⟨written ++ line.bytes, none⟩ lines = _
    rw [ih, allBytes, ByteArray.append_assoc]

/-- A line that fits is written, and takes up room. -/
theorem writeLines_cons_of_le {room : Room} {line : Printed} (h : line.bytes.size ≤ room.bytes) :
    writeLines ⟨written, some room⟩ (line :: lines)
      = writeLines ⟨written ++ line.bytes, some { room with bytes := room.bytes - line.bytes.size }⟩ lines := by
  rw [writeLines]
  simp only [write, h, if_true]

/-- Of a line that does not fit a part is written. -/
theorem writeLines_cons_of_lt {room : Room} {line : Printed} (h : room.bytes < line.bytes.size) :
    writeLines ⟨written, some room⟩ (line :: lines)
      = (⟨written ++ line.bytes.extract 0 room.bytes, some { room with bytes := 0 }⟩, some (line, room.failure)) := by
  rw [writeLines]
  simp only [write, Nat.not_le.2 h, if_false]

theorem writeLines_of_le {room : Room} (h : (allBytes lines).size ≤ room.bytes) :
    writeLines ⟨written, some room⟩ lines
      = (⟨written ++ allBytes lines, some { room with bytes := room.bytes - (allBytes lines).size }⟩, none) := by
  induction lines generalizing written room with
  | nil => rw [writeLines, allBytes, ByteArray.append_empty, ByteArray.size_empty, Nat.sub_zero]
  | cons line lines ih =>
    rw [Printed.size_allBytes_cons] at h
    rw [writeLines_cons_of_le (by omega), ih (by dsimp only; omega), allBytes, ByteArray.append_assoc,
      ByteArray.size_append, Nat.sub_add_eq]

/-- Bytes are written up to the room that there is, and the line that crosses it is the one that fails. -/
theorem writeLines_of_lt {room : Room} (h : room.bytes < (allBytes lines).size) :
    ∃ before line after, lines = before ++ line :: after
      ∧ (allBytes before).size ≤ room.bytes ∧ room.bytes < (allBytes before).size + line.bytes.size
      ∧ writeLines ⟨written, some room⟩ lines
        = (⟨written ++ (allBytes lines).extract 0 room.bytes, some { room with bytes := 0 }⟩,
          some (line, room.failure)) := by
  induction lines generalizing written room with
  | nil => simp [allBytes] at h
  | cons line lines ih =>
    rw [Printed.size_allBytes_cons] at h
    by_cases hfits : line.bytes.size ≤ room.bytes
    · obtain ⟨before, crossing, after, rfl, hbefore, hcrossing, hwrite⟩ :=
        @ih (written ++ line.bytes) { room with bytes := room.bytes - line.bytes.size } (by dsimp only; omega)
      have hsize := Printed.size_allBytes_cons line before
      dsimp only at hbefore hcrossing
      refine ⟨line :: before, crossing, after, rfl, by omega, by omega, ?_⟩
      rw [writeLines_cons_of_le hfits, hwrite, allBytes, ByteArray.extract_append, extract_of_size_le hfits,
        Nat.zero_sub, ByteArray.append_assoc]
    · have hcrosses := Nat.lt_of_not_le hfits
      refine ⟨[], line, lines, rfl, Nat.zero_le _, by simpa [allBytes] using hcrosses, ?_⟩
      have hrest : (allBytes lines).extract (0 - line.bytes.size) (room.bytes - line.bytes.size) = .empty := by
        rw [ByteArray.extract_eq_empty_iff]
        omega
      rw [writeLines_cons_of_lt hcrosses, allBytes, ByteArray.extract_append, hrest, ByteArray.append_empty]

end Sink

/-! ### Runs that are cut short -/

def Stmt.lines (limit : Nat) (slots : List Slot) (env : Environment) : List Printed :=
  (slotsTranscript limit slots).lines env

/-- The run has ended at the line that crosses the room of its sink. Nothing has happened after it: the globals are
those of the environment that the line was to be printed in, no other scope is left open, and the failure that the sink
tells of is all that has been reported. -/
def CutShort (room : Room) (lines : List Printed) (journal : Journal) (cut : Session) : Prop :=
  ∃ before line after, lines = before ++ line :: after
    ∧ (Printed.allBytes before).size ≤ room.bytes ∧ room.bytes < (Printed.allBytes before).size + line.bytes.size
    ∧ cut.machine.environment = ⟨line.environment.globals, []⟩
    ∧ cut.journal = journal.report ⟨.running, none, .unspecified, "Failed to write output: " ++ room.failure⟩

/-- The environment and the journal that a run ends with when its statements come to an outcome. -/
def concluded (journal : Journal) : EStateM.Result Halt Environment Unit → Option (Environment × Journal)
  | .ok _ env => some (env, journal)
  | .error (.error e) env => some (env.toGlobals, journal.report e.diagnostic)
  | .error .exhausted _ => none

theorem interpret_of_exec {limit : Nat} {slots : List Slot} {env : Environment} {sink after : Sink} {journal : Journal}
    {outcome : EStateM.Result Halt Environment Unit}
    (h : Stmt.execSlots limit slots ⟨env, sink⟩ = withSink after outcome) :
    Session.interpret limit ⟨⟨env, sink⟩, journal⟩ slots
      = (concluded journal outcome).map fun (env, journal) => ⟨⟨env, after⟩, journal⟩ := by
  rw [Session.interpret, h]
  rcases outcome with ⟨_, env'⟩ | ⟨_ | _, env'⟩ <;> rfl

/-- A sink with limited room only truncates, whatever it tells when it fails. All that the run on a sink without a limit
writes is written up to the limit. If all of it fits, the two runs end in the same way, and otherwise the run is cut
short. -/
theorem interpret_limited {limit : Nat} {slots : List Slot} {env : Environment} {journal : Journal} {full : Session}
    (h : Session.interpret limit ⟨⟨env, {}⟩, journal⟩ slots = some full) (room : Room) :
    full.machine.sink.written = Printed.allBytes (Stmt.lines limit slots env)
      ∧ ∃ cut, Session.interpret limit ⟨⟨env, { room := some room }⟩, journal⟩ slots = some cut
        ∧ cut.machine.sink.written = full.machine.sink.written.extract 0 room.bytes
        ∧ (full.machine.sink.written.size ≤ room.bytes →
          cut.machine.environment = full.machine.environment ∧ cut.journal = full.journal)
        ∧ (room.bytes < full.machine.sink.written.size → CutShort room (Stmt.lines limit slots env) journal cut) := by
  have hplays := Stmt.plays_execSlots limit slots
  have hfull := hplays.through (Sink.writeLines_unlimited .empty (Stmt.lines limit slots env))
  rw [interpret_of_exec hfull] at h
  obtain ⟨⟨env', journal'⟩, hconcluded, rfl⟩ := Option.map_eq_some_iff.1 h
  rw [ByteArray.empty_append]
  refine ⟨rfl, ?_⟩
  -- Both runs play the same transcript, and only what the sink says to its lines can differ.
  by_cases hroom : (Printed.allBytes (Stmt.lines limit slots env)).size ≤ room.bytes
  · have hcut := hplays.through (@Sink.writeLines_of_le .empty (Stmt.lines limit slots env) room hroom)
    refine ⟨_, (interpret_of_exec hcut).trans (congrArg _ hconcluded), ?_, fun _ => ⟨rfl, rfl⟩, ?_⟩
    · rw [ByteArray.empty_append, extract_of_size_le hroom]
    · intro hlt
      exact absurd hroom (Nat.not_le.2 hlt)
  · obtain ⟨before, line, after, hlines, hbefore, hline, hwrite⟩ :=
      @Sink.writeLines_of_lt .empty (Stmt.lines limit slots env) room (Nat.lt_of_not_le hroom)
    obtain ⟨left, hglobals, hcut⟩ := hplays.stopped hwrite
    have hstop : Stmt.execSlots limit slots ⟨env, { room := some room }⟩
        = withSink _ (.error (.error (.output room.failure)) left) := hcut
    refine ⟨_, interpret_of_exec hstop, ?_, fun hle => absurd hle hroom, fun _ => ?_⟩
    · rw [ByteArray.empty_append]
    · exact ⟨before, line, after, hlines, hbefore, hline, congrArg (Environment.mk · []) hglobals, rfl⟩

/-- In a block, the second line fits but for its newline. Its scope is left, and the assignment behind it is not
executed. -/
theorem interpret_limited_within_block :
    let slots := (parse (scan "var a = \"x\"; \x7b var b = a; print b; a = \"y\"; print a; a = \"z\"; \x7d").tokens).slots
    let room : Room := ⟨3, "broken pipe"⟩
    Session.interpret 1 {} slots = some ⟨⟨⟨[("a", .string "z")], []⟩, ⟨"x\ny\n".toUTF8, none⟩⟩, {}⟩
      ∧ ∃ cut, Session.interpret 1 ⟨⟨{}, { room := some room }⟩, {}⟩ slots = some cut
        ∧ cut.machine = ⟨⟨[("a", .string "y")], []⟩, ⟨"x\ny".toUTF8, some ⟨0, "broken pipe"⟩⟩⟩
        ∧ CutShort room (Stmt.lines 1 slots {}) {} cut := by
  intro slots room
  have hfull : Session.interpret 1 {} slots
      = some ⟨⟨⟨[("a", .string "z")], []⟩, ⟨"x\ny\n".toUTF8, none⟩⟩, {}⟩ := by
    decide +kernel
  have hmachine : (Session.interpret 1 ⟨⟨{}, { room := some room }⟩, {}⟩ slots).map Session.machine
      = some ⟨⟨[("a", .string "y")], []⟩, ⟨"x\ny".toUTF8, some ⟨0, "broken pipe"⟩⟩⟩ := by
    decide +kernel
  obtain ⟨-, cut, hcut, -, -, hshort⟩ := interpret_limited hfull room
  rw [hcut] at hmachine
  exact ⟨hfull, cut, hcut, Option.some.inj hmachine, hshort (by decide +kernel)⟩

end Lox
