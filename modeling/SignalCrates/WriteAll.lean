import Mathlib

/-!
# Writing whole buffers

`write_all` over a file that may take any part of what it is given, and over a cursor into
a fixed array. What a file answers to its successive calls of `write` is a list; when it is
exhausted a call takes all the bytes.
-/
namespace SignalCrates.WriteAll

inductive Answer
  | wrote (n : ℕ)
  | interrupted
  | error
  deriving DecidableEq

inductive IoError
  | writeZero
  | other
  deriving DecidableEq

/-- The bytes that the calls of one loop wrote, the answers left, and the loop's result. -/
structure Drained where
  taken : List UInt8
  answers : List Answer
  result : Except IoError Unit

/-- The loop of `write_all`; a file never takes more bytes than it is given. -/
def drain : List Answer → List UInt8 → Drained
  | answers, [] => ⟨[], answers, .ok ()⟩
  | [], buf => ⟨buf, [], .ok ()⟩
  | .wrote 0 :: answers, _ => ⟨[], answers, .error .writeZero⟩
  | .wrote n :: answers, buf =>
    let rest := drain answers (buf.drop n)
    { rest with taken := buf.take n ++ rest.taken }
  | .interrupted :: answers, buf => drain answers buf
  | .error :: answers, _ => ⟨[], answers, .error .other⟩

theorem drain_nil (answers : List Answer) : drain answers [] = ⟨[], answers, .ok ()⟩ := by
  cases answers <;> rfl

/-- The bytes written are a first part of the buffer, and all of it if no call failed. -/
theorem drain_taken (answers : List Answer) (buf : List UInt8) :
    (drain answers buf).taken <+: buf ∧
      ((drain answers buf).result = .ok () → (drain answers buf).taken = buf) := by
  induction answers, buf using drain.induct with
  | case1 answers => simp [drain_nil]
  | case2 buf hbuf => simp [drain]
  | case3 answers buf hbuf => simp [drain]
  | case4 n answers buf hbuf hn ih =>
    have hd : drain (.wrote n :: answers) buf =
        { drain answers (buf.drop n) with
          taken := buf.take n ++ (drain answers (buf.drop n)).taken } := by
      rw [drain]
      · exact hn
      · exact hbuf
    rw [hd]
    constructor
    · calc buf.take n ++ (drain answers (buf.drop n)).taken
          <+: buf.take n ++ buf.drop n := (List.prefix_append_right_inj _).mpr ih.1
        _ = buf := List.take_append_drop n buf
    · intro hok
      simp only [ih.2 hok, List.take_append_drop]
  | case5 answers buf hbuf ih => simpa [drain, hbuf] using ih
  | case6 answers buf hbuf => simp [drain]

/-- `failed` says that some `write_all` has failed. -/
structure File where
  answers : List Answer
  output : List UInt8
  failed : Bool

def File.writeAll (f : File) (buf : List UInt8) : File × Except IoError Unit :=
  let d := drain f.answers buf
  (⟨d.answers, f.output ++ d.taken, f.failed || !d.result.toBool⟩, d.result)

theorem File.writeAll_nil (f : File) : f.writeAll [] = (f, .ok ()) := by
  simp [writeAll, drain_nil, Except.toBool]

/-- A file that has not failed takes the buffer, or a first part of it. -/
theorem File.writeAll_cases {f : File} (hf : f.failed = false) (buf : List UInt8) :
    ((f.writeAll buf).2 = .ok () ∧ (f.writeAll buf).1.failed = false ∧
      (f.writeAll buf).1.output = f.output ++ buf) ∨
    ∃ e, (f.writeAll buf).2 = .error e ∧ (f.writeAll buf).1.failed = true ∧
      (f.writeAll buf).1.output <+: f.output ++ buf := by
  obtain ⟨hpre, hall⟩ := drain_taken f.answers buf
  cases hres : (drain f.answers buf).result with
  | ok _ =>
    refine .inl ⟨hres, ?_, ?_⟩
    · simp [writeAll, hres, hf, Except.toBool]
    · simp [writeAll, hall hres]
  | error e =>
    refine .inr ⟨e, hres, ?_, ?_⟩
    · simp [writeAll, hres, Except.toBool]
    · simpa [writeAll, List.prefix_append_right_inj] using hpre

/-- `std::io::Cursor<[u8; n]>` -/
structure Cursor (n : ℕ) where
  buf : List UInt8
  position : ℕ
  length : buf.length = n

def Cursor.zeros (n : ℕ) : Cursor n := ⟨List.replicate n 0, 0, List.length_replicate⟩

def Cursor.setPosition {n : ℕ} (c : Cursor n) (position : ℕ) : Cursor n :=
  { c with position := position }

/-- The array up to the position. -/
def Cursor.filled {n : ℕ} (c : Cursor n) : List UInt8 := c.buf.take c.position

/-- The bytes that do not fit are not written, and the result is an error. -/
def Cursor.writeAll {n : ℕ} (c : Cursor n) (s : List UInt8) : Cursor n × Except IoError Unit :=
  let pos := min c.position n
  let amt := min s.length (n - pos)
  (⟨c.buf.take pos ++ s.take amt ++ c.buf.drop (pos + amt), c.position + amt, by
      have hlen := c.length
      simp only [List.length_append, List.length_take, List.length_drop]
      omega⟩,
    if amt = s.length then .ok () else .error .writeZero)

section Cursor
variable {n : ℕ} {c : Cursor n} {s : List UInt8}

theorem Cursor.writeAll_ok (hs : s.length ≤ n - c.position) : (c.writeAll s).2 = .ok () := by
  have hamt : min s.length (n - min c.position n) = s.length := by omega
  exact if_pos hamt

theorem Cursor.writeAll_position (hs : s.length ≤ n - c.position) :
    (c.writeAll s).1.position = c.position + s.length := by
  have hamt : min s.length (n - min c.position n) = s.length := by omega
  exact congrArg (c.position + ·) hamt

theorem Cursor.writeAll_filled (hc : c.position ≤ n) (hs : s.length ≤ n - c.position) :
    (c.writeAll s).1.filled = c.filled ++ s := by
  have hpos : min c.position n = c.position := min_eq_left hc
  have hamt : min s.length (n - c.position) = s.length := min_eq_left hs
  have hlen : (c.buf.take c.position ++ s).length = c.position + s.length := by
    rw [List.length_append, List.length_take, c.length, hpos]
  simp only [filled, writeAll, hpos, hamt, List.take_length]
  rw [← hlen, List.take_left]

end Cursor

end SignalCrates.WriteAll
