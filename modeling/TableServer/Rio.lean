import TableServer.Feeds
import TableServer.RoundTrip
import TableServer.Connection

/-!
Buffered reading and robust writing on a socket, as `csapp.c` does them. What the
socket gives and takes, call by call, is a feed: pieces of any size, interruptions
and failures. A reader gets the lines of the stream whatever the pieces are, so that
a worker that reads through its buffer sees the inputs of the stream itself.
-/

namespace TableServer.Rio
open TableServer.Bytes TableServer.Messages TableServer.Serialization TableServer.Connection
open Feeds

/-! ## Reading -/

def RIO_BUFSIZE : Nat := 8192

/-- The read buffer of a descriptor: `rio_bufptr` is an offset in `rio_buf`, and the
    bytes that are counted as unread lie inside of it. -/
structure Rio_t where
  rio_cnt : Int
  rio_bufptr : Nat
  rio_buf : Str
  size : rio_buf.length = RIO_BUFSIZE
  inside : rio_bufptr + rio_cnt.toNat ≤ RIO_BUFSIZE

/-- The buffer starts empty, with what happens to be in memory. -/
def rio_readinitb (memory : Str) (size : memory.length = RIO_BUFSIZE) : Rio_t :=
  ⟨0, 0, memory, size, by simp [RIO_BUFSIZE]⟩

namespace Rio_t

/-- The bytes that have been read from the descriptor and not been returned. -/
def unread (rp : Rio_t) : Str := (rp.rio_buf.drop rp.rio_bufptr).take rp.rio_cnt.toNat

/-- `read` has returned a value that is not positive. -/
def counted (rp : Rio_t) (ret : Int) (low : ret ≤ 0) : Rio_t :=
  { rp with
    rio_cnt := ret
    inside := by have := rp.inside; omega }

/-- `read` has put a piece at the start of `rio_buf`. -/
def filled (rp : Rio_t) (piece : Str) (fits : piece.length ≤ RIO_BUFSIZE) : Rio_t where
  rio_cnt := piece.length
  rio_bufptr := 0
  rio_buf := piece ++ rp.rio_buf.drop piece.length
  size := by simp only [List.length_append, List.length_drop, rp.size]; omega
  inside := by simpa using fits

/-- `min(n, rio_cnt)` as the source computes it. -/
def copied (rp : Rio_t) (n : Nat) : Nat := if rp.rio_cnt < n then rp.rio_cnt.toNat else n

/-- `memcpy` from the buffer. -/
def bytes (rp : Rio_t) (cnt : Nat) : Str := (rp.rio_buf.drop rp.rio_bufptr).take cnt

/-- The bytes that have been copied are no longer unread. -/
def advance (rp : Rio_t) (n : Nat) : Rio_t :=
  { rp with
    rio_bufptr := rp.rio_bufptr + rp.copied n
    rio_cnt := rp.rio_cnt - rp.copied n
    inside := by
      have within := rp.inside
      unfold copied
      split <;> omega }

end Rio_t

/-- What a read call returns and stores, and the buffer and the descriptor after it. -/
structure Got where
  ret : Int
  stored : Str
  rp : Rio_t
  feed : Feed UInt8

private theorem piece_fits (first : UInt8) (more : Str) :
    (first :: more.take (RIO_BUFSIZE - 1)).length ≤ RIO_BUFSIZE := by
  have size : RIO_BUFSIZE = 8192 := rfl
  simp only [List.length_cons, List.length_take]
  omega

/-- The loop of `rio_read` on an empty buffer; `none` when it has filled the buffer, else
    the value that `rio_read` returns. -/
def refill (rp : Rio_t) : Feed UInt8 → Option Int × Rio_t × Feed UInt8
  | [] => (some 0, rp.counted 0 (by omega), [])
  | .interrupted :: feed => refill (rp.counted (-1) (by omega)) feed
  | .failed :: feed => (some (-1), rp.counted (-1) (by omega), feed)
  | .data first more :: feed =>
    (none, rp.filled (first :: more.take (RIO_BUFSIZE - 1)) (piece_fits first more),
      later (more.drop (RIO_BUFSIZE - 1)) feed)

/-- Up to `n` bytes, with `n` in the range of `int`. -/
def rio_read (rp : Rio_t) (n : Nat) (feed : Feed UInt8) : Got :=
  match (if rp.rio_cnt ≤ 0 then refill rp feed else (none, rp, feed)) with
  | (some ret, rp, feed) => ⟨ret, [], rp, feed⟩
  | (none, rp, feed) => ⟨rp.copied n, rp.bytes (rp.copied n), rp.advance n, feed⟩

/-- The loop of `rio_readlineb` with `n` as it counts and `room` iterations left, and
    whether the `NUL` after the stored bytes is written. -/
def lineLoop : Nat → Int → Rio_t → Feed UInt8 → Got × Bool
  | 0, n, rp, feed => (⟨n - 1, [], rp, feed⟩, true)
  | room + 1, n, rp, feed =>
    let one := rio_read rp 1 feed
    if one.ret = 1 then
      if one.stored.headD NUL = newline then (⟨n + 1 - 1, [one.stored.headD NUL], one.rp, one.feed⟩, true)
      else
        let rest := lineLoop room (n + 1) one.rp one.feed
        ({ rest.1 with stored := one.stored.headD NUL :: rest.1.stored }, rest.2)
    else if one.ret = 0 then
      if n = 1 then (⟨0, [], one.rp, one.feed⟩, false) else (⟨n - 1, [], one.rp, one.feed⟩, true)
    else (⟨-1, [], one.rp, one.feed⟩, false)

def rio_readlineb (rp : Rio_t) (maxlen : Nat) (feed : Feed UInt8) : Got × Bool :=
  lineLoop (intCast maxlen - 1).toNat 1 rp feed

/-- The bytes that the reads to come return in the end, and where they fail. -/
def pending (rp : Rio_t) (feed : Feed UInt8) : List (Option UInt8) := rp.unread.map some ++ marks feed

@[simp] theorem pending_init (memory : Str) (size : memory.length = RIO_BUFSIZE) (feed : Feed UInt8) :
    pending (rio_readinitb memory size) feed = marks feed := by
  simp [pending, Rio_t.unread, rio_readinitb]

private theorem pending_empty {rp : Rio_t} (empty : rp.rio_cnt ≤ 0) (feed : Feed UInt8) :
    pending rp feed = marks feed := by
  have none_ : rp.rio_cnt.toNat = 0 := by omega
  simp [pending, Rio_t.unread, none_]

private theorem unread_filled (rp : Rio_t) (piece : Str) (fits : piece.length ≤ RIO_BUFSIZE) :
    (rp.filled piece fits).unread = piece := by
  simp [Rio_t.unread, Rio_t.filled]

/-- What is copied comes first, the rest stays unread. -/
theorem unread_advance (rp : Rio_t) (n : Nat) :
    rp.unread = rp.bytes (rp.copied n) ++ (rp.advance n).unread := by
  have few : rp.copied n ≤ rp.rio_cnt.toNat := by unfold Rio_t.copied; split <;> omega
  have left : (rp.rio_cnt - rp.copied n).toNat = rp.rio_cnt.toNat - rp.copied n := by omega
  have whole : rp.rio_cnt.toNat = rp.copied n + (rp.rio_cnt.toNat - rp.copied n) := by omega
  simp only [Rio_t.unread, Rio_t.bytes, Rio_t.advance, left]
  conv => lhs; rw [whole, List.take_add]
  rw [List.drop_drop]

/-- What the loop of `rio_read` does on an empty buffer. -/
theorem refill_cases (rp : Rio_t) (feed : Feed UInt8) :
    (∃ rp' feed', refill rp feed = (none, rp', feed') ∧ 0 < rp'.rio_cnt ∧ pending rp' feed' = marks feed) ∨
    (∃ rp', refill rp feed = (some 0, rp', []) ∧ rp'.rio_cnt ≤ 0 ∧ marks feed = []) ∨
    (∃ rp' feed', refill rp feed = (some (-1), rp', feed') ∧ rp'.rio_cnt ≤ 0 ∧ marks feed = none :: marks feed') := by
  induction feed generalizing rp with
  | nil => exact .inr (.inl ⟨_, rfl, by simp [Rio_t.counted], rfl⟩)
  | cons event feed ih =>
    cases event with
    | interrupted => exact ih (rp.counted (-1) (by omega))
    | failed => exact .inr (.inr ⟨_, _, rfl, by simp [Rio_t.counted], rfl⟩)
    | data first more =>
      refine .inl ⟨_, _, rfl, by simp only [Rio_t.filled, List.length_cons]; omega, ?_⟩
      rw [pending, unread_filled, marks_later, marks_data, List.map_cons, List.cons_append, ← List.append_assoc,
        ← List.map_append, List.take_append_drop]

/-- A call of `rio_read` for at least one byte returns bytes, or finds the end or a failure. -/
theorem rio_read_cases (rp : Rio_t) {n : Nat} (some_ : 0 < n) (feed : Feed UInt8) :
    (∃ first more rp' feed', rio_read rp n feed = ⟨(first :: more).length, first :: more, rp', feed'⟩ ∧
      (first :: more).length ≤ n ∧ pending rp feed = (first :: more).map some ++ pending rp' feed') ∨
    (∃ rp', rio_read rp n feed = ⟨0, [], rp', []⟩ ∧ pending rp feed = [] ∧ pending rp' [] = []) ∨
    (∃ rp' feed', rio_read rp n feed = ⟨-1, [], rp', feed'⟩ ∧ pending rp feed = none :: pending rp' feed') := by
  -- What is copied once there are unread bytes.
  have copies : ∀ (rp' : Rio_t) (feed' : Feed UInt8), 0 < rp'.rio_cnt → pending rp' feed' = pending rp feed →
      rio_read rp n feed = ⟨rp'.copied n, rp'.bytes (rp'.copied n), rp'.advance n, feed'⟩ →
      ∃ first more rp' feed', rio_read rp n feed = ⟨(first :: more).length, first :: more, rp', feed'⟩ ∧
        (first :: more).length ≤ n ∧ pending rp feed = (first :: more).map some ++ pending rp' feed' := by
    intro rp' feed' full same run
    have within := rp'.inside
    have size := rp'.size
    have positive : 0 < rp'.copied n ∧ rp'.copied n ≤ n ∧ rp'.copied n ≤ rp'.rio_cnt.toNat := by
      unfold Rio_t.copied
      split <;> omega
    have length : (rp'.bytes (rp'.copied n)).length = rp'.copied n := by
      simp only [Rio_t.bytes, List.length_take, List.length_drop]
      omega
    have split := unread_advance rp' n
    cases piece : rp'.bytes (rp'.copied n) with
    | nil => rw [piece] at length; simp at length; omega
    | cons first more =>
      rw [piece] at length split run
      refine ⟨first, more, rp'.advance n, feed', by rw [run, length], by omega, ?_⟩
      rw [← same, pending, split, List.map_append, List.append_assoc, pending]
  by_cases empty : rp.rio_cnt ≤ 0
  · have ready : rio_read rp n feed = match refill rp feed with
        | (some ret, rp, feed) => ⟨ret, [], rp, feed⟩
        | (none, rp, feed) => ⟨rp.copied n, rp.bytes (rp.copied n), rp.advance n, feed⟩ := by
      rw [rio_read, if_pos empty]
    rw [pending_empty empty] at copies ⊢
    rcases refill_cases rp feed with ⟨rp', feed', run, full, same⟩ | ⟨rp', run, low, none_⟩ |
      ⟨rp', feed', run, low, next⟩
    · exact .inl (copies rp' feed' full same (by rw [ready, run]))
    · exact .inr (.inl ⟨rp', by rw [ready, run], none_, by rw [pending_empty low]; rfl⟩)
    · exact .inr (.inr ⟨rp', feed', by rw [ready, run], by rw [pending_empty low]; exact next⟩)
  · exact .inl (copies rp feed (by omega) rfl (by rw [rio_read, if_neg empty]))

/-- A byte at which a line ends. -/
def isNewline (c : UInt8) : Bool := c == newline

/-- What a call leaves that has counted to `n` and then takes the line `t`. -/
structure TookLine (n : Int) (t : Taken UInt8) (got : Got × Bool) : Prop where
  stored : got.1.stored = t.line
  ret : got.1.ret = if t.failed then -1 else n - 1 + t.line.length
  rest : pending got.1.rp got.1.feed = t.rest
  terminated : t.failed = false → n ≠ 1 ∨ t.line ≠ [] → got.2 = true

/-- The loop takes a line of what is still to be read. -/
theorem lineLoop_takes (room : Nat) {n : Int} (counting : 0 < n) (rp : Rio_t) (feed : Feed UInt8) :
    TookLine n (takeLine isNewline room (pending rp feed)) (lineLoop room n rp feed) := by
  induction room generalizing n rp feed with
  | zero => rw [takeLine_zero]; exact ⟨rfl, by simp [lineLoop], rfl, by simp [lineLoop]⟩
  | succ room ih =>
    rcases rio_read_cases rp (by omega : 0 < 1) feed with ⟨c, more, rp', feed', run, one, next⟩ |
      ⟨rp', run, none_, after⟩ | ⟨rp', feed', run, next⟩
    · obtain rfl : more = [] := List.length_eq_zero_iff.mp (by simp only [List.length_cons] at one; omega)
      have here : pending rp feed = some c :: pending rp' feed' := by simpa using next
      rw [here]
      by_cases stops : c = newline
      · subst stops
        rw [takeLine_stop room (by decide)]
        have loop : lineLoop (room + 1) n rp feed = (⟨n + 1 - 1, [newline], rp', feed'⟩, true) := by
          simp [lineLoop, run]
        rw [loop]
        exact ⟨rfl, by simp, rfl, fun _ _ => rfl⟩
      · rw [takeLine_more room (by simpa [isNewline] using stops)]
        have loop : lineLoop (room + 1) n rp feed = ({ (lineLoop room (n + 1) rp' feed').1 with
            stored := c :: (lineLoop room (n + 1) rp' feed').1.stored }, (lineLoop room (n + 1) rp' feed').2) := by
          simp [lineLoop, run, stops]
        rw [loop]
        have tail := ih (by omega : 0 < n + 1) rp' feed'
        refine ⟨by simp only [tail.stored], ?_, tail.rest, ?_⟩
        · simp only [tail.ret, List.length_cons]
          split
          · rfl
          · omega
        · exact fun whole _ => tail.terminated whole (.inl (by omega))
    · rw [none_, takeLine_nil]
      by_cases fresh : n = 1
      · have loop : lineLoop (room + 1) n rp feed = (⟨0, [], rp', []⟩, false) := by simp [lineLoop, run, fresh]
        rw [loop]
        exact ⟨rfl, by simp [fresh], after, by simp [fresh]⟩
      · have loop : lineLoop (room + 1) n rp feed = (⟨n - 1, [], rp', []⟩, true) := by simp [lineLoop, run, fresh]
        rw [loop]
        exact ⟨rfl, by simp, after, fun _ _ => rfl⟩
    · rw [next, takeLine]
      have loop : lineLoop (room + 1) n rp feed = (⟨-1, [], rp', feed'⟩, false) := by simp [lineLoop, run]
      rw [loop]
      exact ⟨rfl, rfl, rfl, by simp⟩

private theorem rio_readlineb_takes (rp : Rio_t) (maxlen : Nat) (feed : Feed UInt8) :
    TookLine 1 (takeLine isNewline (intCast maxlen - 1).toNat (pending rp feed)) (rio_readlineb rp maxlen feed) :=
  lineLoop_takes _ (by omega) rp feed

/-- What a call with room for `room` bytes does to the bytes that are arriving. -/
structure ReadsLine (arriving : List (Option UInt8)) (room : Nat) (got : Got × Bool) : Prop where
  /-- Only a failure is consumed beside what is stored. -/
  conserved : arriving = got.1.stored.map some ++ (cut (got.1.ret = -1) ++ pending got.1.rp got.1.feed)
  returned : got.1.ret = -1 ∨ got.1.ret = got.1.stored.length
  fits : got.1.stored.length ≤ room
  ended : ∀ before after, got.1.stored = before ++ newline :: after → after = []
  stopped : got.1.ret ≠ -1 → got.1.stored.length < room →
    (∃ before, got.1.stored = before ++ [newline]) ∨ pending got.1.rp got.1.feed = []
  terminated : 0 < got.1.ret → got.2 = true

/-- Whatever is in the buffer and however the bytes arrive, a call takes the bytes to
    come one by one, in order, up to a newline, the room it has or the end; after a
    failed `read` the bytes before it are lost. -/
theorem rio_readlineb_reads (rp : Rio_t) (maxlen : Nat) (feed : Feed UInt8) :
    ReadsLine (pending rp feed) (intCast maxlen - 1).toNat (rio_readlineb rp maxlen feed) := by
  have took := rio_readlineb_takes rp maxlen feed
  generalize rio_readlineb rp maxlen feed = got at took
  generalize (intCast maxlen - 1).toNat = room at took
  have whole := @takeLine_whole _ isNewline room (pending rp feed)
  have room_ := @takeLine_length _ isNewline room (pending rp feed)
  have last (before after : Str)
      (at_ : (takeLine isNewline room (pending rp feed)).line = before ++ newline :: after) : after = [] :=
    takeLine_ended room (pending rp feed) (by decide) at_
  have short := @takeLine_short _ isNewline room (pending rp feed)
  obtain ⟨stored, ret, rest, terminated⟩ := took
  rw [← stored, ← rest] at whole
  rw [← stored] at room_ last short ret terminated
  rw [← rest] at short
  have failure : (takeLine isNewline room (pending rp feed)).failed = decide (got.1.ret = -1) := by
    rw [ret]
    split
    · rename_i failed
      simp [failed]
    · rename_i going
      rw [Bool.eq_false_iff.mpr going]
      symm
      simp only [decide_eq_false_iff_not]
      omega
  rw [failure] at whole ret short terminated
  constructor
  · exact whole
  · by_cases failed : got.1.ret = -1
    · exact .inl failed
    · rw [if_neg (by simpa using failed)] at ret
      exact .inr (by omega)
  · exact room_
  · exact last
  · intro going shorter
    rcases short (by simpa using going) shorter with ⟨before, c, line, stops⟩ | none_
    · obtain rfl : c = newline := by simpa [isNewline] using stops
      exact .inl ⟨before, line⟩
    · exact .inr none_
  · intro positive
    refine terminated (by simp; omega) (.inr ?_)
    intro empty
    rw [empty] at ret
    split at ret
    · omega
    · simp at ret; omega

/-! ## The inputs of a worker -/

/-- The outcome of the read in `chat_with_client`, by the sign of what it returns. -/
def received (rp : Rio_t) (feed : Feed UInt8) : Input :=
  if some_ : 0 < (rio_readlineb rp (MAX_ENCODED_LEN + 1) feed).1.ret then
    .line {
      bytes := (rio_readlineb rp (MAX_ENCODED_LEN + 1) feed).1.stored
      nonempty := by
        have took := rio_readlineb_takes rp (MAX_ENCODED_LEN + 1) feed
        intro empty
        rw [took.ret, ← took.stored, empty] at some_
        split at some_
        · omega
        · simp at some_
      short := by
        rw [(rio_readlineb_takes rp (MAX_ENCODED_LEN + 1) feed).stored]
        exact takeLine_length _ _
      ended := by
        intro before after at_
        rw [(rio_readlineb_takes rp (MAX_ENCODED_LEN + 1) feed).stored] at at_
        exact takeLine_ended _ _ (by decide) at_ }
  else .closed

/-- The inputs of the next `k` iterations of a worker that reads through its buffer. -/
def inputs : Nat → Rio_t → Feed UInt8 → List Input
  | 0, _, _ => []
  | k + 1, rp, feed => received rp feed :: inputs k (rio_readlineb rp (MAX_ENCODED_LEN + 1) feed).1.rp
      (rio_readlineb rp (MAX_ENCODED_LEN + 1) feed).1.feed

/-- The inputs that the stream itself stands for. -/
def streamInputs : Nat → Str → List Input
  | 0, _ => []
  | k + 1, stream => Connection.rio_readlineb stream :: streamInputs k (readBytes 1024 stream).2

theorem readBytes_takeLine (room : Nat) (stream : Str) :
    takeLine isNewline room (stream.map some) =
      ⟨(readBytes room stream).1, false, (readBytes room stream).2.map some⟩ := by
  induction room generalizing stream with
  | zero => cases stream <;> rfl
  | succ room ih =>
    cases stream with
    | nil => rfl
    | cons c stream =>
      rw [List.map_cons, readBytes]
      by_cases stops : c = newline
      · rw [takeLine_stop room (by simpa [isNewline] using stops), if_pos stops]
      · rw [takeLine_more room (by simpa [isNewline] using stops), if_neg stops, ih stream]

/-- A worker reads from its socket what the model reads from the stream: how the network
    cuts the bytes, where signals interrupt the reads and what was in the memory of the
    buffer make no difference. -/
theorem inputs_of_stream (k : Nat) (rp : Rio_t) (feed : Feed UInt8) (stream : Str)
    (arrives : pending rp feed = stream.map some) : inputs k rp feed = streamInputs k stream := by
  induction k generalizing rp feed stream with
  | zero => rfl
  | succ k ih =>
    have took := rio_readlineb_takes rp (MAX_ENCODED_LEN + 1) feed
    have room : (intCast (MAX_ENCODED_LEN + 1) - 1).toNat = 1024 := by decide
    rw [room, arrives, readBytes_takeLine] at took
    have here : received rp feed = Connection.rio_readlineb stream := by
      have ret := took.ret
      have stored := took.stored
      simp only [Bool.false_eq_true, if_false] at ret
      unfold received Connection.rio_readlineb
      by_cases some_ : (readBytes 1024 stream).1 = []
      · rw [dif_neg (by rw [ret, some_]; simp), dif_neg (by simpa using some_)]
      · have positive := List.length_pos_iff.mpr some_
        rw [dif_pos (by omega), dif_pos some_]
        congr 2
    rw [inputs, streamInputs, here, ih _ _ _ took.rest]

theorem inputs_of_stream_pieces :
    inputs 2 (rio_readinitb (List.replicate RIO_BUFSIZE NUL) List.length_replicate)
      [.data 66 (lit "Y"), .interrupted, .data 69 (lit "\nTOP\n")] = streamInputs 2 (lit "BYE\nTOP\n") :=
  inputs_of_stream 2 _ _ _ (by rw [pending_init]; decide)

/-! ## Writing -/

/-- What a call of `rio_writen` returns, and what the descriptor has accepted. -/
structure Sent where
  ret : Int
  sent : Str

/-- The loop of `rio_writen`, with what the next calls of `write` do; after them the
    descriptor accepts what is left. -/
def writeLoop (n : Nat) (bufp : Str) (accepts : List Accept) : Sent :=
  if bufp = [] then ⟨n, []⟩
  else
    match accepts with
    | [] => ⟨n, bufp⟩
    | .interrupted :: accepts => writeLoop n bufp accepts
    | .failed :: _ => ⟨-1, []⟩
    | .accepted more :: accepts =>
      { writeLoop n (bufp.drop (more + 1)) accepts with
        sent := bufp.take (more + 1) ++ (writeLoop n (bufp.drop (more + 1)) accepts).sent }

def rio_writen (usrbuf : Str) (accepts : List Accept) : Sent := writeLoop usrbuf.length usrbuf accepts

/-- Either everything is accepted, in order, or a failure leaves a part unsent. -/
theorem writeLoop_cases (n : Nat) (bufp : Str) (accepts : List Accept) :
    writeLoop n bufp accepts = ⟨n, bufp⟩ ∨
      ∃ sent left, writeLoop n bufp accepts = ⟨-1, sent⟩ ∧ bufp = sent ++ left ∧ left ≠ [] := by
  induction accepts generalizing bufp with
  | nil => unfold writeLoop; split <;> simp_all
  | cons accept accepts ih =>
    by_cases nothing : bufp = []
    · exact .inl (by rw [writeLoop.eq_def, if_pos nothing, nothing])
    rw [writeLoop.eq_def, if_neg nothing]
    cases accept with
    | interrupted => exact ih bufp
    | failed => exact .inr ⟨[], bufp, rfl, rfl, nothing⟩
    | accepted more =>
      have whole : bufp = bufp.take (more + 1) ++ bufp.drop (more + 1) := (List.take_append_drop _ _).symm
      rcases ih (bufp.drop (more + 1)) with all | ⟨sent, left, run, split, unsent⟩
      · exact .inl (by simp only [all, List.take_append_drop])
      · refine .inr ⟨bufp.take (more + 1) ++ sent, left, by simp only [run], ?_, unsent⟩
        rw [List.append_assoc, ← split]
        exact whole

/-- However short the writes are, `rio_writen` returns the length when the whole text has been
    accepted in order, and -1 only when a proper part of it has. -/
theorem rio_writen_sends (usrbuf : Str) (accepts : List Accept) :
    (rio_writen usrbuf accepts = ⟨usrbuf.length, usrbuf⟩) ∨
      ∃ sent left, rio_writen usrbuf accepts = ⟨-1, sent⟩ ∧ usrbuf = sent ++ left ∧ left ≠ [] :=
  writeLoop_cases _ _ _

/-! ## Messages over the wire -/

/-- A message that the wire format keeps: valid, short enough, of bare arguments without `NUL`. -/
structure Wireable (m : Message) : Prop where
  valid : m.is_valid = true
  bare : ∀ a ∈ m.m_args, Bare a
  plain : ∀ a ∈ m.m_args, NUL ∉ a
  fits : (encodedLine m).length ≤ MAX_ENCODED_LEN

instance (m : Message) : Decidable (Wireable m) :=
  decidable_of_iff (m.is_valid = true ∧ (∀ a ∈ m.m_args, Bare a) ∧ (∀ a ∈ m.m_args, NUL ∉ a) ∧
      (encodedLine m).length ≤ MAX_ENCODED_LEN)
    ⟨fun ⟨valid, bare, plain, fits⟩ => ⟨valid, bare, plain, fits⟩, fun ⟨valid, bare, plain, fits⟩ =>
      ⟨valid, bare, plain, fits⟩⟩

/-- The line of such a message before its newline. -/
def unended (m : Message) : Str := messageTypeToString m.m_message_type ++ encodedArgs m.m_args

theorem name_plain (t : MessageType) : NUL ∉ messageTypeToString t := by
  cases t <;> decide

private theorem Wireable.unbroken {m : Message} (wireable : Wireable m) : ∀ c ∈ unended m, c ≠ newline ∧ c ≠ NUL := by
  intro c inside
  rcases List.mem_append.mp inside with name | args
  · refine ⟨(name_chars _ c name).2.1, ?_⟩
    rintro rfl
    exact name_plain _ name
  · obtain ⟨a, member, place⟩ := List.mem_flatMap.mp args
    rcases List.mem_cons.mp place with rfl | letter
    · decide
    · refine ⟨((wireable.bare a member).2 c letter).2.1, ?_⟩
      rintro rfl
      exact wireable.plain a member letter

/-- The message that a reader makes of an input, or the exception it throws. -/
def decoded : Input → Except Exn Message
  | .closed => .error (.CommException (lit "Error reading client input"))
  | .line buf => decode buf.text

/-- The next read takes a line that has arrived whole. -/
theorem received_line {rp : Rio_t} {feed : Feed UInt8} {line : Str} {more : List (Option UInt8)}
    (unbroken : ∀ c ∈ line, c ≠ newline) (fits : line.length < MAX_ENCODED_LEN)
    (arrives : pending rp feed = line.map some ++ some newline :: more) :
    (∃ buf, received rp feed = .line buf ∧ buf.bytes = line ++ [newline]) ∧
      pending (rio_readlineb rp (MAX_ENCODED_LEN + 1) feed).1.rp (rio_readlineb rp (MAX_ENCODED_LEN + 1) feed).1.feed =
        more := by
  have took := rio_readlineb_takes rp (MAX_ENCODED_LEN + 1) feed
  have room : (intCast (MAX_ENCODED_LEN + 1) - 1).toNat = MAX_ENCODED_LEN := by decide
  rw [room, arrives, takeLine_line (by simpa [isNewline] using unbroken) (by decide) fits] at took
  refine ⟨?_, took.rest⟩
  have ret : (rio_readlineb rp (MAX_ENCODED_LEN + 1) feed).1.ret = line.length + 1 := by simpa using took.ret
  unfold received
  rw [dif_pos (by omega)]
  exact ⟨_, rfl, took.stored⟩

/-- The next read takes what is left of a stream that ends before a newline. -/
theorem received_torn {rp : Rio_t} {feed : Feed UInt8} {torn : Str} (unbroken : ∀ c ∈ torn, c ≠ newline ∧ c ≠ NUL)
    (fits : torn.length ≤ MAX_ENCODED_LEN) (arrives : pending rp feed = torn.map some) :
    ∃ e, decoded (received rp feed) = .error e := by
  have took := rio_readlineb_takes rp (MAX_ENCODED_LEN + 1) feed
  have room : (intCast (MAX_ENCODED_LEN + 1) - 1).toNat = MAX_ENCODED_LEN := by decide
  rw [room, arrives, takeLine_all (by simpa [isNewline] using fun c inside => (unbroken c inside).1) fits] at took
  have ret : (rio_readlineb rp (MAX_ENCODED_LEN + 1) feed).1.ret = torn.length := by simpa using took.ret
  unfold received
  split
  · rename_i some_
    change ∃ e, decode ((rio_readlineb rp (MAX_ENCODED_LEN + 1) feed).1.stored.takeWhile (· != NUL)) = .error e
    have plain : torn.takeWhile (· != NUL) = torn :=
      List.takeWhile_eq_self_iff.mpr (by simpa using fun c inside => (unbroken c inside).2)
    rw [took.stored, plain, decode, if_neg (by omega)]
    cases last : torn.getLast? with
    | none =>
      rw [List.getLast?_eq_none_iff.mp last, List.length_nil] at ret
      omega
    | some c =>
      have broken := (unbroken c (List.mem_of_getLast? last)).1
      exact ⟨notTerminated, if_pos broken⟩
  · exact ⟨_, rfl⟩

theorem Wireable.decodes {m : Message} (wireable : Wireable m) {buf : Line}
    (bytes : buf.bytes = unended m ++ [newline]) :
    decoded (.line buf) = .ok m := by
  have plain : ∀ c ∈ unended m ++ [newline], c ≠ NUL := by
    intro c inside
    rcases List.mem_append.mp inside with before | last
    · exact (wireable.unbroken c before).2
    · rw [List.mem_singleton.mp last]
      decide
  have text : buf.text = encodedLine m := by
    rw [Line.text, bytes, List.takeWhile_eq_self_iff.mpr (by simpa using plain)]
    rfl
  rw [decoded, text]
  exact RoundTrip.decode_encodedLine wireable.valid wireable.bare wireable.fits

/-- The next read takes a message whose line has arrived whole. -/
theorem received_message {rp : Rio_t} {feed : Feed UInt8} {m : Message} (wireable : Wireable m)
    {more : List (Option UInt8)} (arrives : pending rp feed = (encodedLine m).map some ++ more) :
    decoded (received rp feed) = .ok m ∧
      pending (rio_readlineb rp (MAX_ENCODED_LEN + 1) feed).1.rp (rio_readlineb rp (MAX_ENCODED_LEN + 1) feed).1.feed =
        more := by
  have fits : (unended m).length < MAX_ENCODED_LEN := by
    have whole := wireable.fits
    simp only [encodedLine, List.length_append, List.length_singleton] at whole
    simp only [unended, List.length_append]
    omega
  have line : pending rp feed = (unended m).map some ++ some newline :: more := by
    rw [arrives]
    simp [encodedLine, unended]
  obtain ⟨⟨buf, received_, bytes⟩, rest⟩ := received_line (fun c inside => (wireable.unbroken c inside).1) fits line
  exact ⟨by rw [received_, wireable.decodes bytes], rest⟩

/-- A call that returns the length has sent the whole line. -/
theorem sent_whole {m : Message} {accepts : List Accept}
    (whole : (rio_writen (encodedLine m) accepts).ret = (encodedLine m).length) :
    (rio_writen (encodedLine m) accepts).sent = encodedLine m := by
  rcases rio_writen_sends (encodedLine m) accepts with all | ⟨sent, left, run, _, _⟩
  · rw [all]
  · rw [run] at whole
    simp only at whole
    omega

/-- What a line that was not sent whole leaves on the stream. -/
theorem sent_torn {m : Message} {accepts : List Accept} (wireable : Wireable m)
    (failed : (rio_writen (encodedLine m) accepts).ret = -1) :
    (∀ c ∈ (rio_writen (encodedLine m) accepts).sent, c ≠ newline ∧ c ≠ NUL) ∧
      (rio_writen (encodedLine m) accepts).sent.length ≤ MAX_ENCODED_LEN := by
  rcases rio_writen_sends (encodedLine m) accepts with all | ⟨sent, left, run, split, unsent⟩
  · rw [all] at failed
    simp only at failed
    omega
  · rw [run]
    have line : unended m ++ [newline] = sent ++ left := split
    obtain ⟨init, c, rfl⟩ := List.eq_nil_or_concat left |>.resolve_left unsent
    rw [List.concat_eq_append, ← List.append_assoc] at line
    obtain ⟨before, _⟩ := List.append_inj' line rfl
    have fits := wireable.fits
    rw [split] at fits
    constructor
    · intro d inside
      exact wireable.unbroken d (by rw [before]; exact List.mem_append_left _ inside)
    · simp only [List.length_append] at fits ⊢
      omega

/-- The messages that a reader makes of what the writers' calls of `rio_writen` have put on the
    stream: each one that was written whole, in order and unchanged. Where the last call fails,
    the reader finds an error and no other message in its place. -/
theorem messages_arrive (sends : List (Message × List Accept)) (last : Message × List Accept)
    (wireable : ∀ s ∈ sends ++ [last], Wireable s.1)
    (written : ∀ s ∈ sends, (rio_writen (encodedLine s.1) s.2).ret = (encodedLine s.1).length) (rp : Rio_t)
    (feed : Feed UInt8) (arrives : pending rp feed =
      ((sends ++ [last]).flatMap fun s => (rio_writen (encodedLine s.1) s.2).sent).map some) :
    ∃ end_, (inputs (sends.length + 1) rp feed).map decoded = sends.map (fun s => .ok s.1) ++ [end_] ∧
      if (rio_writen (encodedLine last.1) last.2).ret = -1 then ∃ e, end_ = .error e else end_ = .ok last.1 := by
  induction sends generalizing rp feed with
  | nil =>
    have here := wireable last (by simp)
    refine ⟨decoded (received rp feed), rfl, ?_⟩
    split
    · rename_i failed
      obtain ⟨unbroken, fits⟩ := sent_torn here failed
      exact received_torn unbroken fits (by simpa using arrives)
    · rename_i succeeds
      rcases rio_writen_sends (encodedLine last.1) last.2 with all | ⟨sent, left, run, _⟩
      · have line : pending rp feed = (encodedLine last.1).map some ++ [] := by simpa [all] using arrives
        exact (received_message here line).1
      · exact absurd (by rw [run]) succeeds
  | cons s sends ih =>
    have here := wireable s (by simp)
    have whole := sent_whole (written s (by simp))
    rw [List.cons_append, List.flatMap_cons, whole, List.map_append] at arrives
    obtain ⟨message, rest⟩ := received_message here arrives
    obtain ⟨end_, later, how⟩ := ih (fun t inside => wireable t (List.mem_cons_of_mem _ inside))
      (fun t inside => written t (List.mem_cons_of_mem _ inside)) _ _ rest
    refine ⟨end_, ?_, how⟩
    rw [List.length_cons, inputs, List.map_cons, message, later]
    rfl

/-- A message that is sent byte by byte arrives, and the next one is cut off in the middle. -/
theorem messages_arrive_torn : ∃ e,
    (inputs 2 (rio_readinitb (List.replicate RIO_BUFSIZE NUL) List.length_replicate)
      [.data 80 (lit "US"), .interrupted, .data 72 (lit " 7\nTO")]).map decoded =
        [.ok ⟨.PUSH, [lit "7"]⟩, .error e] := by
  have wireable : ∀ s ∈ [(⟨.PUSH, [lit "7"]⟩, [.accepted 0, .interrupted])] ++ [(⟨.TOP, []⟩, [.accepted 1, .failed])],
      Wireable (s : Message × List Accept).1 := by
    intro s inside
    simp only [List.cons_append, List.nil_append, List.mem_cons, List.not_mem_nil, or_false] at inside
    rcases inside with rfl | rfl
    · exact ⟨by decide, by decide +kernel, by decide, by decide⟩
    · exact ⟨by decide, by simp, by simp, by decide⟩
  obtain ⟨end_, read, how⟩ := messages_arrive [(⟨.PUSH, [lit "7"]⟩, [.accepted 0, .interrupted])]
    (⟨.TOP, []⟩, [.accepted 1, .failed]) wireable (by decide +kernel)
    (rio_readinitb (List.replicate RIO_BUFSIZE NUL) List.length_replicate)
    [.data 80 (lit "US"), .interrupted, .data 72 (lit " 7\nTO")] (by rw [pending_init]; decide)
  rw [if_pos (by decide)] at how
  obtain ⟨e, rfl⟩ := how
  exact ⟨e, read⟩

end TableServer.Rio
