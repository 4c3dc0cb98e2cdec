import AgenticCore.InstructionSource
import AgenticCore.JsonBytes
import AgenticCore.Utf8

/-!
# A source observed in chunks (`native_memory.rs`)

* `observeSource`     : UTF-8 and the normal revision of a source, read into a bounded buffer.
* `emit`, `lineFeeds` : line ends made line feeds, with a carriage return held back between chunks.
* `Observed`          : what holds between two reads.
* `observe_source`    : **however the reader splits a source, it is observed as a whole**.
-/

set_option autoImplicit false

namespace AgenticCore

namespace SourceObservation

open Utf8

def MAX_SOURCE_BYTES : Nat := 262144

def CR : UInt8 := 13
def LF : UInt8 := 10

/-- Why an observation fails: it reports an error, or an index is outside its buffer. -/
inductive Fault where
  | outOfRange
  | reported (e : CoreError)

abbrev Run (α : Type) := Except Fault α

def report {α : Type} (message : String) : Run α := .error (.reported ⟨message⟩)

/-- `xs[from..to]`. -/
def slice (xs : List UInt8) (start stop : Nat) : Run (List UInt8) :=
  if start ≤ stop ∧ stop ≤ xs.length then .ok ((xs.take stop).drop start) else .error .outOfRange

/-- `xs[i] = b`. -/
def put (xs : List UInt8) (i : Nat) (b : UInt8) : Run (List UInt8) :=
  if i < xs.length then .ok (xs.set i b) else .error .outOfRange

/-- Bytes written from a place on. -/
def overwrite (xs : List UInt8) (start : Nat) (bytes : List UInt8) : List UInt8 :=
  xs.take start ++ bytes ++ xs.drop (start + bytes.length)

/-- A read into `buffer[start..stop]` from what remains of the file: one byte or more, up to what the
    reader has at hand, unless the slice is empty or nothing remains. -/
def read (atHand : Nat) (remaining buffer : List UInt8) (start stop : Nat) :
    Run (Nat × List UInt8) := do
  let space ← slice buffer start stop
  let chunk := remaining.take (min (atHand + 1) space.length)
  pure (chunk.length, overwrite buffer start chunk)

/-- The carriage return held back, how many bytes are written, and the bytes. -/
structure Written where
  cr : Bool
  output : Nat
  normalized : List UInt8

def write (w : Written) (b : UInt8) : Run Written := do
  let w ← (if w.cr ∧ b ≠ LF then do
      let normalized ← put w.normalized w.output CR
      pure { w with output := w.output + 1, normalized }
    else pure w)
  if b = CR then pure { w with cr := true }
  else do
    let normalized ← put w.normalized w.output b
    pure { cr := false, output := w.output + 1, normalized }

structure State where
  buffer : List UInt8
  normalized : List UInt8
  pending : Nat
  total : Nat
  cr : Bool
  body : Option (List UInt8)
  /-- What was hashed so far. -/
  hashed : List UInt8

def start (limit : Nat) : State where
  buffer := List.replicate 8196 0
  normalized := List.replicate 8196 0
  pending := 0
  total := 0
  cr := false
  body := if 0 < limit then some [] else none
  hashed := []

/-- What is valid of the buffer's first bytes. -/
def validLength (bytes : List UInt8) : Run Nat :=
  match fromUtf8 bytes with
  | .ok () => pure bytes.length
  | .error ⟨upTo, none⟩ => pure upTo
  | .error ⟨_, some _⟩ => report "invalid utf-8 sequence"

/-- What was read goes to the body, where one is kept. -/
def keep (body : Option (List UInt8)) (buffer : List UInt8) (pending count : Nat) :
    Run (Option (List UInt8)) :=
  match body with
  | none => pure none
  | some body => do
    let bytes ← slice buffer pending (pending + count)
    pure (some (body ++ bytes))

/-- One turn of the loop, once `count` bytes were read. -/
def turn (limit : Nat) (s : State) (count : Nat) (buffer : List UInt8) : Run State := do
  let total := s.total + count
  if MAX_SOURCE_BYTES < total then report "decision source exceeds bounded read"
  else do
    let body ← keep (if limit < total then none else s.body) buffer s.pending count
    let length := s.pending + count
    let bytes ← slice buffer 0 length
    let valid ← validLength bytes
    let front ← slice buffer 0 valid
    let w ← front.foldlM write ⟨s.cr, 0, s.normalized⟩
    let out ← slice w.normalized 0 w.output
    let rest ← slice buffer valid length
    pure {
      buffer := overwrite buffer 0 rest
      normalized := w.normalized
      pending := length - valid
      total, cr := w.cr, body
      hashed := s.hashed ++ out }

theorem read_count {atHand : Nat} {remaining buffer : List UInt8} {start stop : Nat}
    {r : Nat × List UInt8} (h : read atHand remaining buffer start stop = .ok r) :
    r.1 ≤ remaining.length := by
  simp only [read, Except.bind_eq_ok_iff, Except.pure_eq_ok_iff] at h
  obtain ⟨space, -, rfl⟩ := h
  exact (List.take_prefix _ _).length_le

/-- The loop: `atHand` is what the reader has at hand at each read. -/
def loop (limit : Nat) (atHand : Nat → Nat) (reads : Nat) (s : State) (remaining : List UInt8) :
    Run State :=
  match _hread : read (atHand reads) remaining s.buffer s.pending 8192 with
  | .error e => .error e
  | .ok (count, buffer) =>
    if _hcount : count = 0 then
      if s.pending ≠ 0 then report "selected source contains incomplete UTF-8" else .ok s
    else
      match turn limit s count buffer with
      | .error e => .error e
      | .ok s => loop limit atHand (reads + 1) s (remaining.drop count)
termination_by remaining.length
decreasing_by
  have := read_count _hread
  simp only at this
  rw [List.length_drop]
  omega

/-- `observe_source`: the revision, and the body while it fits the limit. -/
def observeSource (hash : ByteArray → String) (atHand : Nat → Nat) (content : List UInt8)
    (limit : Nat) : Run (String × Option (List UInt8)) := do
  let s ← loop limit atHand 0 (start limit) content
  let hashed := if s.cr then s.hashed ++ [CR] else s.hashed
  pure (hash hashed.toByteArray, s.body)

/-! ## Line ends -/

/-- What is written of the bytes after a carriage return was held back or not, and whether one is
    held back at their end. -/
def emit (cr : Bool) : List UInt8 → List UInt8 × Bool
  | [] => ([], cr)
  | b :: bytes =>
    let held := if cr ∧ b ≠ LF then [CR] else []
    if b = CR then (held ++ (emit true bytes).1, (emit true bytes).2)
    else (held ++ b :: (emit false bytes).1, (emit false bytes).2)

theorem emit_append (cr : Bool) (bytes more : List UInt8) :
    emit cr (bytes ++ more) = ((emit cr bytes).1 ++ (emit (emit cr bytes).2 more).1,
      (emit (emit cr bytes).2 more).2) := by
  induction bytes generalizing cr with
  | nil => rfl
  | cons b bytes ih =>
    rw [List.cons_append, emit, emit]
    by_cases hb : b = CR
    · simp only [hb, if_true, ih, List.append_assoc]
    · simp only [hb, if_false, ih, List.append_assoc, List.cons_append]

theorem put_ok {xs : List UInt8} {i : Nat} (h : i < xs.length) (b : UInt8) :
    put xs i b = .ok (xs.set i b) := if_pos h

theorem take_set {xs : List UInt8} {i : Nat} (h : i < xs.length) (b : UInt8) :
    (xs.set i b).take (i + 1) = xs.take i ++ [b] := by
  rw [List.take_add_one, List.take_set_of_le (Nat.le_refl i), List.getElem?_set_self h]
  rfl

/-- What writing the bytes did. -/
structure Wrote (w : Written) (bytes : List UInt8) (w' : Written) : Prop where
  cr : w'.cr = (emit w.cr bytes).2
  output : w'.output = w.output + (emit w.cr bytes).1.length
  length : w'.normalized.length = w.normalized.length
  text : w'.normalized.take w'.output = w.normalized.take w.output ++ (emit w.cr bytes).1

theorem Wrote.then {w w' w'' : Written} {bytes more : List UInt8} (h : Wrote w bytes w')
    (h' : Wrote w' more w'') : Wrote w (bytes ++ more) w'' := by
  constructor
  · rw [h'.cr, h.cr, emit_append]
  · rw [h'.output, h.output, h.cr, emit_append, List.length_append, Nat.add_assoc]
  · rw [h'.length, h.length]
  · rw [h'.text, h.text, h.cr, emit_append, List.append_assoc]

theorem emit_held (b : UInt8) (h : b ≠ LF) :
    emit true [b] = if b = CR then ([CR], true) else ([CR, b], false) := by
  rw [emit]
  simp only [h, ne_eq, not_false_iff, and_self, if_true]
  split <;> rfl

theorem emit_free (cr : Bool) (b : UInt8) (h : cr = false ∨ b = LF) :
    emit cr [b] = if b = CR then ([], true) else ([b], false) := by
  have hheld : ¬(cr = true ∧ b ≠ LF) := by
    rintro ⟨hcr, hb⟩
    rcases h with h | h
    · rw [h] at hcr
      cases hcr
    · exact hb h
  rw [emit]
  simp only [if_neg hheld]
  split <;> rfl

/-- A byte that is not held back is written where it fits. -/
theorem write_plain {w : Written} {b : UInt8} (hroom : w.output < w.normalized.length) :
    ∃ w', (if b = CR then (pure { w with cr := true } : Run Written)
        else do
          let normalized ← put w.normalized w.output b
          pure { cr := false, output := w.output + 1, normalized }) = .ok w' ∧
      w'.cr = decide (b = CR) ∧ w'.normalized.length = w.normalized.length ∧
      w'.output = w.output + (if b = CR then 0 else 1) ∧
      w'.normalized.take w'.output = w.normalized.take w.output ++ (if b = CR then [] else [b]) := by
  by_cases hb : b = CR
  · refine ⟨{ w with cr := true }, if_pos hb, by simp [hb], rfl, ?_, ?_⟩
    · rw [if_pos hb]
      rfl
    · rw [if_pos hb, List.append_nil]
  · refine ⟨⟨false, w.output + 1, w.normalized.set w.output b⟩, ?_, by simp [hb], ?_, ?_, ?_⟩
    · rw [if_neg hb, put_ok hroom]
      rfl
    · exact List.length_set
    · rw [if_neg hb]
    · rw [if_neg hb]
      exact take_set hroom b

theorem write_byte {w : Written} {b : UInt8}
    (hroom : w.output + 1 + w.cr.toNat ≤ w.normalized.length) :
    ∃ w', write w b = .ok w' ∧ Wrote w [b] w' ∧
      w'.output + w'.cr.toNat ≤ w.output + 1 + w.cr.toNat := by
  by_cases hheld : w.cr = true ∧ b ≠ LF
  · obtain ⟨hcr, hb⟩ := hheld
    rw [hcr] at hroom
    simp only [Bool.toNat_true] at hroom
    have hlength : (w.normalized.set w.output CR).length = w.normalized.length := List.length_set
    obtain ⟨w', hw', hcr', hlength', houtput', htext'⟩ := write_plain
      (w := ⟨w.cr, w.output + 1, w.normalized.set w.output CR⟩) (b := b)
      (by simp only [hlength]; omega)
    have htake := take_set (show w.output < w.normalized.length by omega) CR
    refine ⟨w', ?_, ⟨?_, ?_, ?_, ?_⟩, ?_⟩
    · rw [write, if_pos ⟨hcr, hb⟩, put_ok (by omega)]
      exact hw'
    · rw [hcr', hcr, emit_held b hb]
      split <;> simp [*]
    · rw [houtput', hcr, emit_held b hb]
      split <;> simp
    · rw [hlength', hlength]
    · rw [htext', hcr, emit_held b hb, htake]
      split <;> simp
    · rw [houtput', hcr', hcr]
      split <;> simp [*]
  · obtain ⟨w', hw', hcr', hlength', houtput', htext'⟩ := write_plain (w := w) (b := b)
      (by omega)
    have hfree : w.cr = false ∨ b = LF := by
      rw [not_and_or, Bool.not_eq_true, not_not] at hheld
      exact hheld
    refine ⟨w', ?_, ⟨?_, ?_, hlength', ?_⟩, ?_⟩
    · rw [write, if_neg hheld]
      exact hw'
    · rw [hcr', emit_free w.cr b hfree]
      split <;> simp [*]
    · rw [houtput', emit_free w.cr b hfree]
      split <;> simp
    · rw [htext', emit_free w.cr b hfree]
      split <;> simp
    · rw [houtput', hcr']
      split
      · simp [*]
      · simp [*]

/-- The bytes of a front are written within the buffer: at most one more than there are. -/
theorem write_front (front : List UInt8) (w : Written)
    (hroom : w.output + front.length + w.cr.toNat ≤ w.normalized.length) :
    ∃ w', front.foldlM write w = .ok w' ∧ Wrote w front w' ∧
      w'.output ≤ w.output + front.length + w.cr.toNat := by
  induction front generalizing w with
  | nil =>
    refine ⟨w, rfl, ⟨rfl, rfl, rfl, (List.append_nil _).symm⟩, ?_⟩
    omega
  | cons b front ih =>
    rw [List.length_cons] at hroom
    obtain ⟨w₁, hw₁, hwrote₁, hbound₁⟩ := write_byte (w := w) (b := b) (by omega)
    obtain ⟨w', hw', hwrote', hbound'⟩ := ih w₁ (by rw [hwrote₁.length]; omega)
    refine ⟨w', ?_, hwrote₁.then hwrote', ?_⟩
    · rw [List.foldlM_cons, hw₁]
      exact hw'
    · rw [List.length_cons]
      omega

/-! ## Between two reads -/

/-- What holds once `done` was read: the bytes held back are the start of a character, what comes
    before them is valid and written. -/
structure Observed (limit : Nat) (done : List UInt8) (s : State) : Prop where
  buffer : s.buffer.length = 8196
  normalized : s.normalized.length = 8196
  total : s.total = done.length
  bounded : done.length ≤ MAX_SOURCE_BYTES
  body : s.body = if 0 < limit ∧ done.length ≤ limit then some done else none
  few : s.pending ≤ 3
  split : ∃ front owed, done = front ++ s.buffer.take s.pending ∧ run [] front = some [] ∧
    run [] (s.buffer.take s.pending) = some owed ∧ (owed = [] → s.pending = 0) ∧
    emit false front = (s.hashed, s.cr)

theorem start_observed (limit : Nat) : Observed limit [] (start limit) := by
  refine ⟨List.length_replicate, List.length_replicate, rfl, Nat.zero_le _, ?_, Nat.zero_le _,
    [], [], rfl, rfl, rfl, fun _ => rfl, rfl⟩
  by_cases hlimit : 0 < limit
  · rw [if_pos ⟨hlimit, Nat.zero_le _⟩]
    exact if_pos hlimit
  · rw [if_neg fun h => hlimit h.1]
    exact if_neg hlimit

theorem slice_ok {xs : List UInt8} {start stop : Nat} (h : start ≤ stop) (h' : stop ≤ xs.length) :
    slice xs start stop = .ok ((xs.take stop).drop start) := if_pos ⟨h, h'⟩

theorem length_overwrite {xs bytes : List UInt8} {start : Nat}
    (h : start + bytes.length ≤ xs.length) : (overwrite xs start bytes).length = xs.length := by
  rw [overwrite, List.length_append, List.length_append, List.length_take, List.length_drop]
  omega

theorem take_overwrite (xs bytes : List UInt8) {start : Nat} (h : start ≤ xs.length) :
    (overwrite xs start bytes).take (start + bytes.length) = xs.take start ++ bytes := by
  have hlength : (xs.take start ++ bytes).length = start + bytes.length := by
    rw [List.length_append, List.length_take, Nat.min_eq_left h]
  rw [overwrite, ← hlength, List.take_left]

theorem read_ok (atHand : Nat) (remaining : List UInt8) {buffer : List UInt8} {start : Nat}
    (hbuffer : buffer.length = 8196) (hstart : start ≤ 8192) :
    ∃ chunk, chunk = remaining.take (min (atHand + 1) (8192 - start)) ∧
      read atHand remaining buffer start 8192 = .ok (chunk.length, overwrite buffer start chunk) := by
  have hlength : ((buffer.take 8192).drop start).length = 8192 - start := by
    rw [List.length_drop, List.length_take, hbuffer]
    rfl
  refine ⟨_, rfl, ?_⟩
  rw [read, slice_ok hstart (by omega), ← hlength]
  rfl

/-- The fault of a read that no whole source has. -/
def Refused {α : Type} (r : Run α) : Prop := ∃ e, r = .error (.reported e)

/-- What is valid of a stretch of bytes that starts with a character. -/
theorem validLength_ok {bytes : List UInt8} {owed : Owed} (h : run [] bytes = some owed) :
    ∃ n, n ≤ bytes.length ∧ validLength bytes = .ok n ∧ run [] (bytes.take n) = some [] ∧
      run [] (bytes.drop n) = some owed ∧ (bytes.drop n).length ≤ 3 ∧
      (owed = [] → bytes.length - n = 0) := by
  cases owed with
  | nil =>
    refine ⟨bytes.length, Nat.le_refl _, ?_, ?_, ?_, ?_, ?_⟩
    · rw [validLength, fromUtf8_complete h]
      rfl
    · rwa [List.take_length]
    · rw [List.drop_length]
      rfl
    · simp
    · exact fun _ => Nat.sub_self _
  | cons range left =>
    obtain ⟨n, hn, hcheck, hfront, hrest, hshort⟩ := fromUtf8_unfinished h
    refine ⟨n, hn, ?_, hfront, hrest, hshort, nofun⟩
    rw [validLength, hcheck]
    rfl

theorem validLength_refused {bytes : List UInt8} (h : run [] bytes = none) :
    Refused (validLength bytes) := by
  obtain ⟨upTo, len, hcheck⟩ := fromUtf8_invalid h
  refine ⟨⟨"invalid utf-8 sequence"⟩, ?_⟩
  rw [validLength, hcheck]
  rfl

variable {limit : Nat} {done chunk : List UInt8} {s : State}

theorem Observed.run_done (h : Observed limit done s) (more : List UInt8) :
    run [] (done ++ more) = run [] (s.buffer.take s.pending ++ more) := by
  obtain ⟨front, owed, hdone, hfront, -⟩ := h.split
  rw [hdone, List.append_assoc, run_append, hfront]
  rfl

theorem keep_ok (h : Observed limit done s) (hchunk : s.pending + chunk.length ≤ 8192) :
    keep (if limit < s.total + chunk.length then none else s.body)
        (overwrite s.buffer s.pending chunk) s.pending chunk.length =
      .ok (if 0 < limit ∧ (done ++ chunk).length ≤ limit then some (done ++ chunk) else none) := by
  have hbuffer := h.buffer
  rw [h.total, h.body, List.length_append]
  by_cases hlimit : limit < done.length + chunk.length
  · rw [if_pos hlimit, if_neg (by omega)]
    rfl
  · rw [if_neg hlimit]
    by_cases hpositive : 0 < limit
    · rw [if_pos ⟨hpositive, by omega⟩, if_pos ⟨hpositive, by omega⟩]
      have hslice : slice (overwrite s.buffer s.pending chunk) s.pending (s.pending + chunk.length) =
          .ok chunk := by
        rw [slice_ok (by omega) (by rw [length_overwrite (by omega)]; omega),
          take_overwrite _ _ (by omega), List.drop_left' (by rw [List.length_take]; omega)]
      rw [keep, hslice]
      rfl
    · rw [if_neg fun h => hpositive h.1, if_neg fun h => hpositive h.1]
      rfl

/-- **A turn keeps what holds between two reads**, as long as the bytes are few enough and may start
    a text. -/
theorem turn_observed (h : Observed limit done s) (hchunk : s.pending + chunk.length ≤ 8192)
    (hbound : (done ++ chunk).length ≤ MAX_SOURCE_BYTES) {owed : Owed}
    (hrun : run [] (done ++ chunk) = some owed) :
    ∃ s', turn limit s chunk.length (overwrite s.buffer s.pending chunk) = .ok s' ∧
      Observed limit (done ++ chunk) s' := by
  have hbuffer := h.buffer
  have hlength : (overwrite s.buffer s.pending chunk).length = 8196 := by
    rw [length_overwrite (by omega), hbuffer]
  have hbytes : (overwrite s.buffer s.pending chunk).take (s.pending + chunk.length) =
      s.buffer.take s.pending ++ chunk := take_overwrite _ _ (by omega)
  generalize hb : s.buffer.take s.pending ++ chunk = bytes at hbytes
  have hbytesLength : bytes.length = s.pending + chunk.length := by
    rw [← hb, List.length_append, List.length_take]
    omega
  rw [h.run_done, hb] at hrun
  obtain ⟨n, hn, hvalid, hfront, hrest, hshort, hnone⟩ := validLength_ok hrun
  obtain ⟨front, _, hdone, hfrontDone, -, -, hemit⟩ := h.split
  have hcr := Bool.toNat_le s.cr
  obtain ⟨w, hw, hwrote, hwritten⟩ := write_front (bytes.take n) ⟨s.cr, 0, s.normalized⟩ (by
      rw [h.normalized, List.length_take]
      simp only
      omega)
  rw [List.length_take, Nat.min_eq_left hn] at hwritten
  simp only [Nat.zero_add] at hwritten
  have hnormalized : w.normalized.length = 8196 := by
    rw [hwrote.length]
    exact h.normalized
  have hall : slice (overwrite s.buffer s.pending chunk) 0 (s.pending + chunk.length) =
      .ok bytes := by
    rw [slice_ok (Nat.zero_le _) (by omega), List.drop_zero, hbytes]
  have hslice : slice (overwrite s.buffer s.pending chunk) 0 n = .ok (bytes.take n) := by
    rw [slice_ok (Nat.zero_le _) (by omega), List.drop_zero, ← hbytes, List.take_take,
      Nat.min_eq_left (by omega)]
  have hout : slice w.normalized 0 w.output = .ok (emit s.cr (bytes.take n)).1 := by
    rw [slice_ok (Nat.zero_le _) (by omega), List.drop_zero, hwrote.text]
    simp only [List.take_zero, List.nil_append]
  have hleft : slice (overwrite s.buffer s.pending chunk) n (s.pending + chunk.length) =
      .ok (bytes.drop n) := by
    rw [slice_ok (by omega) (by omega), hbytes]
  have htotal : ¬MAX_SOURCE_BYTES < s.total + chunk.length := by
    rw [h.total]
    rw [List.length_append] at hbound
    omega
  have hpending : s.pending + chunk.length - n = (bytes.drop n).length := by
    rw [List.length_drop, hbytesLength]
  refine ⟨{
      buffer := overwrite (overwrite s.buffer s.pending chunk) 0 (bytes.drop n)
      normalized := w.normalized
      pending := s.pending + chunk.length - n
      total := s.total + chunk.length
      cr := w.cr
      body := if 0 < limit ∧ (done ++ chunk).length ≤ limit then some (done ++ chunk) else none
      hashed := s.hashed ++ (emit s.cr (bytes.take n)).1 }, ?_, ?_⟩
  · unfold turn
    rw [if_neg htotal, keep_ok h hchunk]
    simp only [Except.bind_eq_ok_iff]
    exact ⟨_, rfl, _, hall, _, hvalid, _, hslice, _, hw, _, hout, _, hleft, rfl⟩
  · have htake : (overwrite (overwrite s.buffer s.pending chunk) 0 (bytes.drop n)).take
        (s.pending + chunk.length - n) = bytes.drop n := by
      have := take_overwrite (overwrite s.buffer s.pending chunk) (bytes.drop n) (Nat.zero_le _)
      rw [Nat.zero_add, List.take_zero, List.nil_append] at this
      rw [hpending, this]
    refine ⟨?_, hnormalized, ?_, hbound, rfl, ?_, front ++ bytes.take n, owed, ?_, ?_, ?_, ?_, ?_⟩
    · rw [length_overwrite (by rw [hlength, ← hpending]; omega), hlength]
    · rw [List.length_append, ← h.total]
    · rw [← hpending] at hshort
      exact hshort
    · rw [htake, List.append_assoc, List.take_append_drop, ← hb, ← List.append_assoc, ← hdone]
    · rw [run_append, hfrontDone]
      exact hfront
    · rw [htake]
      exact hrest
    · rw [← hbytesLength]
      exact hnone
    · rw [emit_append, hemit, hwrote.cr]

theorem turn_refused (h : Observed limit done s) (hchunk : s.pending + chunk.length ≤ 8192)
    (hbad : MAX_SOURCE_BYTES < (done ++ chunk).length ∨ run [] (done ++ chunk) = none) :
    Refused (turn limit s chunk.length (overwrite s.buffer s.pending chunk)) := by
  have hbuffer := h.buffer
  by_cases hbound : MAX_SOURCE_BYTES < (done ++ chunk).length
  · refine ⟨⟨"decision source exceeds bounded read"⟩, ?_⟩
    rw [List.length_append, ← h.total] at hbound
    rw [turn, if_pos hbound]
    rfl
  · have hrun := hbad.resolve_left hbound
    rw [h.run_done] at hrun
    obtain ⟨e, he⟩ := validLength_refused hrun
    refine ⟨e, ?_⟩
    rw [List.length_append, ← h.total] at hbound
    have hall : slice (overwrite s.buffer s.pending chunk) 0 (s.pending + chunk.length) =
        .ok (s.buffer.take s.pending ++ chunk) := by
      rw [slice_ok (Nat.zero_le _) (by rw [length_overwrite (by omega)]; omega), List.drop_zero,
        take_overwrite _ _ (by omega)]
    rw [turn, if_neg hbound, keep_ok h hchunk]
    change (slice _ 0 (s.pending + chunk.length) >>= _) = _
    rw [hall]
    change (validLength _ >>= _) = _
    rw [he]
    rfl

theorem loop_read {atHand : Nat → Nat} {reads count : Nat} {remaining buffer : List UInt8}
    (hread : read (atHand reads) remaining s.buffer s.pending 8192 = .ok (count, buffer)) :
    loop limit atHand reads s remaining =
      if count = 0 then
        if s.pending ≠ 0 then report "selected source contains incomplete UTF-8" else .ok s
      else (turn limit s count buffer).bind fun s =>
        loop limit atHand (reads + 1) s (remaining.drop count) := by
  rw [loop]
  split
  · rename_i e he
    rw [hread] at he
    cases he
  · rename_i he
    rw [hread] at he
    cases he
    by_cases hcount : count = 0
    · rw [dif_pos hcount, if_pos hcount]
    · rw [dif_neg hcount, if_neg hcount]
      cases turn limit s count buffer <;> rfl

/-- How the loop ends over a whole source. -/
def Ends (limit : Nat) (whole : List UInt8) (r : Run State) : Prop :=
  if whole.length ≤ MAX_SOURCE_BYTES ∧ run [] whole = some [] then
    ∃ s, r = .ok s ∧ Observed limit whole s ∧ s.pending = 0
  else Refused r

/-- **The loop ends as the whole source says**, whatever the reader has at hand. -/
theorem loop_ends {limit : Nat} {atHand : Nat → Nat} {done : List UInt8} {s : State} (reads : Nat)
    {remaining : List UInt8} (h : Observed limit done s) :
    Ends limit (done ++ remaining) (loop limit atHand reads s remaining) := by
  have hfew := h.few
  obtain ⟨chunk, hchunk, hread⟩ := read_ok (atHand reads) remaining
    h.buffer (show s.pending ≤ 8192 by omega)
  have hlength : chunk.length = min (min (atHand reads + 1) (8192 - s.pending)) remaining.length := by
    rw [hchunk, List.length_take]
  have hfront : remaining = chunk ++ remaining.drop chunk.length := by
    obtain ⟨rest, hrest⟩ := List.take_prefix (min (atHand reads + 1) (8192 - s.pending)) remaining
    rw [← hchunk] at hrest
    rw [← hrest, List.drop_left]
  rw [loop_read hread]
  by_cases hcount : chunk.length = 0
  · -- The end of the file: nothing may be pending.
    have hremaining : remaining = [] := List.length_eq_zero_iff.mp (by omega)
    subst hremaining
    rw [if_pos hcount, List.append_nil]
    obtain ⟨front, owed, hdone, hfront, hpending, hnone, -⟩ := h.split
    have hrun : run [] done = some owed := by
      have := h.run_done []
      rwa [List.append_nil, List.append_nil, hpending] at this
    by_cases howed : owed = []
    · rw [howed] at hrun
      rw [Ends, if_pos ⟨h.bounded, hrun⟩, if_neg (not_not.mpr (hnone howed))]
      exact ⟨s, rfl, h, hnone howed⟩
    · have hsome : s.pending ≠ 0 := by
        intro hzero
        rw [hzero] at hpending
        exact howed (Option.some.inj hpending).symm
      rw [Ends, if_neg, if_pos hsome]
      · exact ⟨_, rfl⟩
      · rintro ⟨-, hvalid⟩
        rw [hrun] at hvalid
        exact howed (Option.some.inj hvalid)
  · rw [if_neg hcount]
    have hfits : s.pending + chunk.length ≤ 8192 := by omega
    have hwhole : done ++ remaining = (done ++ chunk) ++ remaining.drop chunk.length := by
      rw [List.append_assoc, ← hfront]
    by_cases hbad : MAX_SOURCE_BYTES < (done ++ chunk).length ∨ run [] (done ++ chunk) = none
    · obtain ⟨e, he⟩ := turn_refused h hfits hbad
      rw [he, Ends, if_neg]
      · exact ⟨e, rfl⟩
      · rintro ⟨hbound, hvalid⟩
        rw [hwhole] at hbound hvalid
        rcases hbad with hbad | hbad
        · rw [List.length_append] at hbound
          omega
        · rw [run_append, hbad] at hvalid
          cases hvalid
    · rw [not_or, Nat.not_lt] at hbad
      obtain ⟨owed, hrun⟩ := Option.ne_none_iff_exists'.mp hbad.2
      obtain ⟨s', hs', hobserved⟩ := turn_observed h hfits hbad.1 hrun
      rw [hs', hwhole]
      exact loop_ends (reads + 1) hobserved
termination_by remaining.length
decreasing_by
  rw [List.length_drop]
  omega

/-! ## Line feeds -/

/-- What is hashed of the bytes after a carriage return was held back or not. -/
def flushed (cr : Bool) (bytes : List UInt8) : List UInt8 :=
  if (emit cr bytes).2 then (emit cr bytes).1 ++ [CR] else (emit cr bytes).1

theorem flushed_plain {b : UInt8} (h : b ≠ CR) (bytes : List UInt8) :
    flushed false (b :: bytes) = b :: flushed false bytes := by
  unfold flushed
  rw [emit]
  simp only [Bool.false_eq_true, false_and, if_false, if_neg h, List.nil_append]
  split <;> rfl

theorem flushed_text {text : List UInt8} (h : CR ∉ text) (bytes : List UInt8) :
    flushed false (text ++ bytes) = text ++ flushed false bytes := by
  induction text with
  | nil => rfl
  | cons b text ih =>
    rw [List.mem_cons, not_or] at h
    rw [List.cons_append, flushed_plain (Ne.symm h.1), ih h.2, List.cons_append]

theorem flushed_cr (bytes : List UInt8) : flushed false (CR :: bytes) = flushed true bytes := by
  unfold flushed
  rw [emit]
  simp only [Bool.false_eq_true, false_and, if_false, if_true, List.nil_append]

theorem flushed_lf (bytes : List UInt8) : flushed true (LF :: bytes) = LF :: flushed false bytes := by
  have hne : LF ≠ CR := by decide
  unfold flushed
  rw [emit]
  simp only [ne_eq, not_true_eq_false, and_false, if_false, if_neg hne, List.nil_append]
  split <;> rfl

theorem flushed_other {bytes : List UInt8} (h : bytes.head? ≠ some LF) :
    flushed true bytes = CR :: flushed false bytes := by
  cases bytes with
  | nil => rfl
  | cons b bytes =>
    have hb : b ≠ LF := fun hb => h (congrArg some hb)
    unfold flushed
    rw [emit, emit]
    simp only [hb, ne_eq, not_false_eq_true, and_self, if_true, Bool.false_eq_true, and_true,
      if_false, List.nil_append]
    split <;> split <;> rfl

/-- A byte below 128 stands only for its own character. -/
theorem encode_ascii {c : Char} {b : UInt8} (h : b ∈ String.utf8EncodeChar c)
    (hb : b.toNat < 0x80) : c.val.toNat = b.toNat ∧ String.utf8EncodeChar c = [b] := by
  rw [String.utf8EncodeChar] at h ⊢
  split at h
  · rw [List.mem_singleton] at h
    rename_i hsmall
    have hb' : b.toNat = c.val.toNat := by
      rw [h, UInt8.toNat_ofNat']
      omega
    rw [if_pos hsmall, h]
    exact ⟨by rw [← h, hb'], rfl⟩
  · exfalso
    split at h
    · simp only [List.mem_cons, List.not_mem_nil, or_false] at h
      rcases h with rfl | rfl <;> rw [UInt8.toNat_ofNat'] at hb <;> omega
    · split at h
      · simp only [List.mem_cons, List.not_mem_nil, or_false] at h
        rcases h with rfl | rfl | rfl <;> rw [UInt8.toNat_ofNat'] at hb <;> omega
      · simp only [List.mem_cons, List.not_mem_nil, or_false] at h
        rcases h with rfl | rfl | rfl | rfl <;> rw [UInt8.toNat_ofNat'] at hb <;> omega

theorem char_of_ascii {c d : Char} (h : c.val.toNat = d.val.toNat) : c = d :=
  Char.ext (UInt32.toNat_inj.mp h)

theorem encode_cr {c : Char} (h : CR ∈ String.utf8EncodeChar c) : c = '\r' :=
  char_of_ascii (encode_ascii h (by decide)).1

theorem encode_head {cs : List Char} (h : (cs.flatMap String.utf8EncodeChar).head? = some LF) :
    ∃ rest, cs = '\n' :: rest := by
  cases cs with
  | nil => cases h
  | cons c cs =>
    rw [List.flatMap_cons] at h
    have hmem : LF ∈ String.utf8EncodeChar c := by
      cases hencode : String.utf8EncodeChar c with
      | nil =>
        have := String.length_utf8EncodeChar c
        rw [hencode, List.length_nil] at this
        have := c.utf8Size_pos
        omega
      | cons b bytes =>
        rw [hencode, List.cons_append, List.head?_cons] at h
        rw [Option.some.inj h]
        exact List.mem_cons_self
    exact ⟨cs, by rw [char_of_ascii (d := '\n') (encode_ascii hmem (by decide)).1]⟩

open InstructionSource (lineFeeds)

/-- **Line ends made line feeds byte by byte are those of the text.** -/
theorem flushed_encode (cs : List Char) :
    flushed false (cs.flatMap String.utf8EncodeChar) =
      (lineFeeds cs).flatMap String.utf8EncodeChar := by
  have hcr : String.utf8EncodeChar '\r' = [CR] := by decide
  have hlf : String.utf8EncodeChar '\n' = [LF] := by decide
  fun_induction lineFeeds cs with
  | case1 => rfl
  | case2 rest ih =>
    rw [List.flatMap_cons, List.flatMap_cons, List.flatMap_cons, hcr, hlf, List.singleton_append,
      List.singleton_append, List.singleton_append, flushed_cr, flushed_lf, ih]
  | case3 c rest hpair ih =>
    rw [List.flatMap_cons, List.flatMap_cons]
    by_cases hc : c = '\r'
    · subst hc
      have hnext : (rest.flatMap String.utf8EncodeChar).head? ≠ some LF := by
        intro hhead
        obtain ⟨rest', rfl⟩ := encode_head hhead
        exact hpair rest' rfl rfl
      rw [hcr, List.singleton_append, List.singleton_append, flushed_cr, flushed_other hnext, ih]
    · rw [flushed_text fun hmem => hc (encode_cr hmem), ih]

example : flushed false [CR, CR, LF, CR] = [CR, LF, CR] := by decide

/-! ## The whole source -/

theorem revision_texts (host : InstructionSource.Host) (cs : List Char) :
    host.revision (cs.flatMap String.utf8EncodeChar).toByteArray =
      host.hash (flushed false (cs.flatMap String.utf8EncodeChar)).toByteArray := by
  have hvalid : (cs.flatMap String.utf8EncodeChar).toByteArray.IsValidUTF8 := ⟨cs, rfl⟩
  have htext : (String.fromUTF8 _ hvalid).toList = cs := by
    refine Json.utf8Encode_inj ?_
    rw [← String.toByteArray_ofList, String.ofList_toList]
    rfl
  rw [InstructionSource.Host.revision, String.fromUTF8?, dif_pos hvalid, Option.getD_some, htext,
    flushed_encode]
  congr 1

/-- **A source is observed in chunks as it is observed whole.** -/
theorem observe_source (host : InstructionSource.Host) (atHand : Nat → Nat) (content : List UInt8)
    (limit : Nat) :
    ((∃ r, observeSource host.hash atHand content limit = .ok r) ↔
      content.length ≤ MAX_SOURCE_BYTES ∧ content.toByteArray.IsValidUTF8) ∧
    (∀ revision body, observeSource host.hash atHand content limit = .ok (revision, body) →
      revision = host.revision content.toByteArray ∧
      body = if 0 < limit ∧ content.length ≤ limit then some content else none) ∧
    observeSource host.hash atHand content limit ≠ .error .outOfRange := by
  have hends : Ends limit content (loop limit atHand 0 (start limit) content) :=
    loop_ends 0 (start_observed limit)
  rw [← run_iff]
  unfold observeSource
  unfold Ends at hends
  split at hends
  · rename_i hgood
    obtain ⟨s, hs, hobserved, hpending⟩ := hends
    obtain ⟨front, owed, hdone, hfront, -, -, hemit⟩ := hobserved.split
    rw [hpending, List.take_zero, List.append_nil] at hdone
    subst hdone
    rw [hs]
    refine ⟨⟨fun _ => hgood, fun _ => ⟨_, rfl⟩⟩, ?_, nofun⟩
    intro revision body h
    cases h
    obtain ⟨cs, hcs⟩ := texts_of_run hfront
    refine ⟨?_, hobserved.body⟩
    rw [hcs, revision_texts, ← hcs, flushed, hemit]
  · rename_i hbad
    obtain ⟨e, he⟩ := hends
    rw [he]
    refine ⟨⟨?_, fun h => absurd h hbad⟩, nofun, nofun⟩
    rintro ⟨r, hr⟩
    cases hr

end SourceObservation

end AgenticCore
