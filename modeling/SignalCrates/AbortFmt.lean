import SignalCrates.WriteAll

/-!
# The message of an abort

`abort_fmt` and its writer. A piece of text is the bytes of one string that `fmt::write`
passes on, and `Route` keeps apart the two writes whose errors become `std::fmt::Error`.
-/
namespace SignalCrates.AbortFmt
open WriteAll

inductive Route
  | buf
  | file
  deriving DecidableEq

structure StderrWriter where
  buf : Cursor 1024
  file : File

/-- `StderrWriter::new`, on a stderr with these answers -/
def StderrWriter.new (answers : List Answer) : StderrWriter :=
  ⟨Cursor.zeros 1024, ⟨answers, [], false⟩⟩

/-- `map_err`, for a write of `route` -/
def mapErr (route : Route) (res : Except IoError Unit) : Except Route Unit :=
  res.mapError fun _ => route

def StderrWriter.flush (w : StderrWriter) : StderrWriter × Except Route Unit :=
  let r := w.file.writeAll w.buf.filled
  (⟨w.buf.setPosition 0, r.1⟩, mapErr .file r.2)

def StderrWriter.writeBuf (w : StderrWriter) (s : List UInt8) :
    StderrWriter × Except Route Unit :=
  let r := w.buf.writeAll s
  ({ w with buf := r.1 }, mapErr .buf r.2)

def StderrWriter.writeFile (w : StderrWriter) (s : List UInt8) :
    StderrWriter × Except Route Unit :=
  let r := w.file.writeAll s
  ({ w with file := r.1 }, mapErr .file r.2)

/-- The position stays within the buffer, so that the subtraction does not wrap. -/
def StderrWriter.remaining (w : StderrWriter) : ℕ := 1024 - w.buf.position

/-- A piece that would fill the buffer is not put into it. -/
def StderrWriter.writeStr (w : StderrWriter) (s : List UInt8) :
    StderrWriter × Except Route Unit :=
  if s.length < w.remaining then w.writeBuf s
  else
    match w.flush with
    | (w, .error e) => (w, .error e)
    | (w, .ok ()) => if s.length < 1024 then w.writeBuf s else w.writeFile s

/-- `fmt::write`, by the pieces that it passes on until the first error -/
def StderrWriter.write (w : StderrWriter) : List (List UInt8) → StderrWriter × Except Route Unit
  | [] => (w, .ok ())
  | s :: pieces =>
    match w.writeStr s with
    | (w, .error e) => (w, .error e)
    | (w, .ok ()) => w.write pieces

/-- The bytes of the newline. -/
def newline : List UInt8 := [10]

/-- The writer when `abort_fmt` aborts; the result of `write_char` is not looked at. -/
def abortFmt (answers : List Answer) (pieces : List (List UInt8)) : StderrWriter :=
  match (StderrWriter.new answers).write pieces with
  | (w, .error _) => w
  | (w, .ok ()) => (w.writeStr newline).1.flush.1

/-- The bytes that stand in the buffer have not been output, and a failure leaves none. -/
structure Holds (text : List UInt8) (w : StderrWriter) : Prop where
  position : w.buf.position ≤ 1024
  pending : w.file.failed = false → w.file.output ++ w.buf.filled = text
  failed : w.file.failed = true → w.buf.position = 0 ∧ w.file.output <+: text

/-- The result of an operation says whether a write of the file has failed by its end. -/
inductive Writes (text : List UInt8) : StderrWriter × Except Route Unit → Prop
  | ok {w} (hw : Holds text w) (hf : w.file.failed = false) : Writes text (w, .ok ())
  | error {w} (hw : Holds text w) (hf : w.file.failed = true) : Writes text (w, .error .file)

theorem Holds.append {text : List UInt8} {w : StderrWriter} (h : Holds text w)
    (hf : w.file.failed = true) (s : List UInt8) : Holds (text ++ s) w := by
  obtain ⟨hpos, hpre⟩ := h.failed hf
  refine ⟨h.position, fun hf' => ?_, fun _ => ⟨hpos, hpre.trans (List.prefix_append text s)⟩⟩
  exact absurd (hf.symm.trans hf') (by simp)

theorem new_holds (answers : List Answer) : Holds [] (StderrWriter.new answers) where
  position := Nat.zero_le 1024
  pending _ := rfl
  failed hf := by cases hf

section Operations
variable {text s : List UInt8} {w : StderrWriter}

theorem Holds.output_eq (h : Holds text w) (hf : w.file.failed = false)
    (hpos : w.buf.position = 0) : w.file.output = text := by
  have hfilled : w.buf.filled = [] := by rw [Cursor.filled, hpos, List.take_zero]
  simpa [hfilled] using h.pending hf

/-- An empty buffer, on a file that has the text or has failed in the middle of it. -/
theorem Holds.of_empty (hpos : w.buf.position = 0)
    (hout : w.file.failed = false → w.file.output = text)
    (hpre : w.file.output <+: text) : Holds text w where
  position := by omega
  pending hf := by rw [Cursor.filled, hpos, List.take_zero, List.append_nil, hout hf]
  failed _ := ⟨hpos, hpre⟩

/-- A write to the file when the buffer has just been emptied. -/
theorem writes_file {buf : Cursor 1024} {f : File} (hf : f.failed = false)
    (hpos : buf.position = 0) (htext : f.output ++ s = text) :
    Writes text (⟨buf, (f.writeAll s).1⟩, mapErr .file (f.writeAll s).2) := by
  rcases f.writeAll_cases hf s with ⟨hok, hf', hout⟩ | ⟨e, herr, hf', hpre⟩
  · rw [hok]
    have hout' : (f.writeAll s).1.output = text := hout.trans htext
    exact .ok (.of_empty hpos (fun _ => hout') (hout' ▸ List.prefix_rfl)) hf'
  · rw [herr]
    refine .error (.of_empty hpos (fun hf => ?_) (htext ▸ hpre)) hf'
    exact absurd (hf'.symm.trans hf) (by simp)

theorem flush_writes (h : Holds text w) (hf : w.file.failed = false) : Writes text w.flush :=
  writes_file hf rfl (h.pending hf)

theorem writeFile_writes (h : Holds text w) (hf : w.file.failed = false)
    (hpos : w.buf.position = 0) : Writes (text ++ s) (w.writeFile s) :=
  writes_file hf hpos (by rw [h.output_eq hf hpos])

theorem writeBuf_eq (hs : s.length ≤ 1024 - w.buf.position) :
    w.writeBuf s = ({ w with buf := (w.buf.writeAll s).1 }, .ok ()) := by
  simp only [StderrWriter.writeBuf, Cursor.writeAll_ok hs]
  rfl

theorem writeBuf_writes (h : Holds text w) (hf : w.file.failed = false)
    (hs : s.length ≤ 1024 - w.buf.position) : Writes (text ++ s) (w.writeBuf s) := by
  have hpos : (w.buf.writeAll s).1.position = w.buf.position + s.length :=
    Cursor.writeAll_position hs
  have hfilled : (w.buf.writeAll s).1.filled = w.buf.filled ++ s :=
    Cursor.writeAll_filled h.position hs
  have hle := h.position
  rw [writeBuf_eq hs]
  refine .ok ⟨?_, fun _ => ?_, fun hf' => absurd (hf.symm.trans hf') (by simp)⟩ hf
  · change (w.buf.writeAll s).1.position ≤ 1024
    omega
  · change w.file.output ++ (w.buf.writeAll s).1.filled = text ++ s
    rw [hfilled, ← List.append_assoc, h.pending hf]

theorem writeStr_writes (h : Holds text w) (hf : w.file.failed = false) (s : List UInt8) :
    Writes (text ++ s) (w.writeStr s) := by
  unfold StderrWriter.writeStr
  by_cases hs : s.length < w.remaining
  · rw [if_pos hs]
    exact writeBuf_writes h hf (by unfold StderrWriter.remaining at hs; omega)
  · rw [if_neg hs]
    have hflush := flush_writes h hf
    have hpos : w.flush.1.buf.position = 0 := rfl
    generalize w.flush = r at hflush hpos
    cases hflush with
    | error hw hf' => exact .error (hw.append hf' s) hf'
    | ok hw hf' =>
      simp only
      split_ifs with hs'
      · exact writeBuf_writes hw hf' (by rw [hpos]; omega)
      · exact writeFile_writes hw hf' hpos

/-- Whatever has been output, the buffer takes every piece that is put into it. -/
theorem writeStr_ne_buf (w : StderrWriter) (s : List UInt8) : (w.writeStr s).2 ≠ .error .buf := by
  have mapErr_ne : ∀ res, mapErr .file res ≠ .error .buf := by
    rintro (e | ⟨⟩) <;> rintro ⟨⟩
  have writeBuf_ne : ∀ w : StderrWriter, s.length ≤ 1024 - w.buf.position →
      (w.writeBuf s).2 ≠ .error .buf := by
    intro w hs
    rw [writeBuf_eq hs]
    rintro ⟨⟩
  unfold StderrWriter.writeStr
  by_cases hs : s.length < w.remaining
  · rw [if_pos hs]
    exact writeBuf_ne w (by unfold StderrWriter.remaining at hs; omega)
  · rw [if_neg hs]
    have hflush : w.flush.2 ≠ .error .buf := mapErr_ne _
    have hpos : w.flush.1.buf.position = 0 := rfl
    generalize w.flush = r at hflush hpos
    obtain ⟨w', e | ⟨⟩⟩ := r
    · exact hflush
    · simp only
      split_ifs with hs'
      · exact writeBuf_ne w' (by rw [hpos]; omega)
      · exact mapErr_ne _

theorem write_writes (h : Holds text w) (hf : w.file.failed = false)
    (pieces : List (List UInt8)) : Writes (text ++ pieces.flatten) (w.write pieces) := by
  induction pieces generalizing text w with
  | nil => simpa [StderrWriter.write] using Writes.ok h hf
  | cons s pieces ih =>
    have hs := writeStr_writes h hf s
    rw [List.flatten_cons, ← List.append_assoc]
    unfold StderrWriter.write
    generalize w.writeStr s = r at hs
    cases hs with
    | ok hw hf' => exact ih hw hf'
    | error hw hf' => exact .error (hw.append hf' _) hf'

end Operations

theorem Writes.holds {text : List UInt8} {r : StderrWriter × Except Route Unit}
    (h : Writes text r) : Holds text r.1 := by
  cases h with
  | ok hw _ => exact hw
  | error hw _ => exact hw

/-- The last flush has nothing to write when the newline was not accepted. -/
theorem flush_of_failed {text : List UInt8} {w : StderrWriter} (h : Holds text w)
    (hf : w.file.failed = true) : w.flush.1 = w := by
  obtain ⟨hpos, -⟩ := h.failed hf
  have hfilled : w.buf.filled = [] := by rw [Cursor.filled, hpos, List.take_zero]
  obtain ⟨⟨buf, position, hlen⟩, f⟩ := w
  obtain rfl : position = 0 := hpos
  simp only [StderrWriter.flush, hfilled, File.writeAll_nil, Cursor.setPosition]

theorem abortFmt_holds (answers : List Answer) (pieces : List (List UInt8)) :
    Holds (pieces.flatten ++ newline) (abortFmt answers pieces) ∧
      (abortFmt answers pieces).buf.position = 0 := by
  have hwrite := write_writes (new_holds answers) rfl pieces
  rw [List.nil_append] at hwrite
  unfold abortFmt
  generalize (StderrWriter.new answers).write pieces = r at hwrite
  cases hwrite with
  | error hw hf => exact ⟨hw.append hf newline, (hw.failed hf).1⟩
  | @ok w hw hf =>
    refine ⟨?_, rfl⟩
    have hline := writeStr_writes hw hf newline
    change Holds _ (w.writeStr newline).1.flush.1
    generalize w.writeStr newline = r' at hline
    cases hline with
    | ok hw' hf' => exact (flush_writes hw' hf').holds
    | error hw' hf' => exact (flush_of_failed hw' hf').symm ▸ hw'

/-- The text and its newline are output in order and once, or a first part of them is. -/
theorem abort_fmt_output (answers : List Answer) (pieces : List (List UInt8)) :
    (∀ sent, ((StderrWriter.new answers).write sent).1.buf.position ≤ 1024 ∧
      ∀ s, (((StderrWriter.new answers).write sent).1.writeStr s).2 ≠ .error .buf) ∧
    (abortFmt answers pieces).buf.position ≤ 1024 ∧
    ((abortFmt answers pieces).file.failed = false →
      (abortFmt answers pieces).file.output = pieces.flatten ++ newline) ∧
    ((abortFmt answers pieces).file.failed = true →
      (abortFmt answers pieces).file.output <+: pieces.flatten ++ newline) := by
  obtain ⟨hw, hpos⟩ := abortFmt_holds answers pieces
  refine ⟨fun sent => ?_, hw.position, fun hf => hw.output_eq hf hpos, fun hf => (hw.failed hf).2⟩
  have hsent := (write_writes (new_holds answers) rfl sent).holds.position
  exact ⟨hsent, writeStr_ne_buf _⟩

theorem abort_fmt_output_cut :
    (abortFmt [.wrote 1, .interrupted, .error] [[97, 98], [99]]).file.failed = true ∧
    (abortFmt [.wrote 1, .interrupted, .error] [[97, 98], [99]]).file.output = [97] ∧
    [97] <+: [97, 98, 99] ++ newline :=
  ⟨rfl, rfl, (abort_fmt_output [.wrote 1, .interrupted, .error] [[97, 98], [99]]).2.2.2 rfl⟩

end SignalCrates.AbortFmt
