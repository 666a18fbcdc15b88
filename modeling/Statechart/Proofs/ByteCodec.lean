import Statechart.Checkpoint.Binary
import Statechart.Proofs.Stamp
import Statechart.Proofs.Writing

/-!
A checkpoint is read back from its bytes. A reader takes a value's bytes when it leaves whatever
follows them and finds fewer of them not enough; readers that do so one after the other do so
together, and a checkpoint is read by nothing else than such readers in a row.
-/
namespace Statechart

namespace Binary

variable {α β : Type} {r : Reader α} {f : α → Reader β} {x : α} {y : β} {bs cs : Bytes}
variable {width n : Nat}

/-! ### Readers in a row -/

structure Takes (r : Reader α) (bs : Bytes) (x : α) : Prop where
  whole (rest : Bytes) : r (bs ++ rest) = some (x, rest)
  part {p : Bytes} (hp : p <+: bs) (hne : p ≠ bs) : r p = none

/-- Reads on with what the first value asks for. -/
def andThen (r : Reader α) (f : α → Reader β) : Reader β := fun bs =>
  (r bs).bind fun taken => f taken.1 taken.2

/-- Takes nothing off, and may fail all the same. -/
def settle (o : Option α) : Reader α := fun bs => o.bind fun x => some (x, bs)

theorem takes_settle (x : α) : Takes (settle (some x)) [] x where
  whole _ := rfl
  part hp hne := absurd (List.prefix_nil.mp hp) hne

/-- A part of two values' bytes is a part of the first's, or all of those and a part of the
second's. -/
theorem Takes.andThen (first : Takes r bs x) (second : Takes (f x) cs y) :
    Takes (andThen r f) (bs ++ cs) y where
  whole rest := by
    rw [Binary.andThen, List.append_assoc, first.whole, Option.bind_some]
    exact second.whole rest
  part {p} hp hne := by
    rw [Binary.andThen]
    rcases List.prefix_or_prefix_of_prefix hp (List.prefix_append bs cs) with hshort | hlong
    · by_cases heq : p = bs
      · have hcs : cs ≠ [] := by
          rintro rfl
          exact hne (heq.trans (List.append_nil bs).symm)
        rw [heq, ← List.append_nil bs, first.whole, Option.bind_some]
        exact second.part List.nil_prefix hcs.symm
      · rw [first.part hshort heq]
        rfl
    · obtain ⟨q, rfl⟩ := hlong
      rw [first.whole, Option.bind_some]
      exact second.part ((List.prefix_append_right_inj bs).mp hp)
        (fun heq => hne (congrArg (bs ++ ·) heq))

/-- The last reader of a row only puts the value together. -/
theorem Takes.thenSettle {o : α → Option β} (first : Takes r bs x) (hy : o x = some y) :
    Takes (Binary.andThen r fun x => settle (o x)) bs y := by
  have hsettle : Takes (settle (o x)) [] y := hy ▸ takes_settle y
  have htogether := first.andThen (f := fun x => settle (o x)) hsettle
  rwa [List.append_nil] at htogether

/-- A byte stands in front of what is read. -/
theorem takes_cons {b : UInt8} {r' : Reader β} (g : α → β) (hnil : r' [] = none)
    (hcons : ∀ bs, r' (b :: bs) = (r bs).map fun taken => (g taken.1, taken.2))
    (behind : Takes r bs x) : Takes r' (b :: bs) (g x) where
  whole rest := by rw [List.cons_append, hcons, behind.whole, Option.map_some]
  part {p} hp hne := by
    rcases List.prefix_cons_iff.mp hp with rfl | ⟨q, rfl, hq⟩
    · exact hnil
    · rw [hcons, behind.part hq fun heq => hne (congrArg (b :: ·) heq), Option.map_none]

/-! ### Numbers and blocks -/

theorem takes_littleEndian (hn : n < Nat.pow 256 width) :
    Takes (readLittleEndian width) (littleEndian width n) n := by
  induction width generalizing n with
  | zero =>
    obtain rfl : n = 0 := by simpa using hn
    exact takes_settle 0
  | succ width ih =>
    have hrest : n / 256 < Nat.pow 256 width :=
      Nat.div_lt_of_lt_mul (Nat.lt_of_lt_of_eq hn (Nat.mul_comm _ _))
    have hvalue : (UInt8.ofNat (n % 256)).toNat + 256 * (n / 256) = n := by
      rw [UInt8.toNat_ofNat', Nat.mod_mod, Nat.mod_add_div]
    have htakes : Takes (readLittleEndian (width + 1)) (littleEndian (width + 1) n)
        ((UInt8.ofNat (n % 256)).toNat + 256 * (n / 256)) :=
      takes_cons (fun high => (UInt8.ofNat (n % 256)).toNat + 256 * high) rfl (fun _ => rfl)
        (ih hrest)
    rwa [hvalue] at htakes

theorem takes_length (hn : n < lengthLimit) : Takes readLength (writeLength n) n :=
  takes_littleEndian hn

/-- So many bytes, as they come. -/
def block (n : Nat) : Reader Bytes := fun bs => if n ≤ bs.length then some (bs.splitAt n) else none

theorem takes_block (bs : Bytes) : Takes (block bs.length) bs bs where
  whole rest := by
    rw [block, if_pos (by simp), List.splitAt_eq, List.take_left, List.drop_left]
  part hp hne := if_neg fun hle => hne (hp.eq_of_length_le hle)

theorem takes_readBlock (hbs : bs.length < lengthLimit) : Takes readBlock (writeBlock bs) bs :=
  (takes_length hbs).andThen (takes_block bs)

/-! ### Texts -/

theorem toList_loop (bs : ByteArray) (i : Nat) (front : List UInt8) :
    ByteArray.toList.loop bs i front = front.reverse ++ bs.data.toList.drop i := by
  fun_induction ByteArray.toList.loop bs i front with
  | case1 i front hi ih =>
    have hi : i < bs.data.toList.length := by simpa using hi
    have hget : bs.get! i = bs.data.toList[i] := by
      rw [ByteArray.get!, Array.getElem_toList]
      exact getElem!_pos bs.data i (by simpa using hi)
    rw [ih, List.drop_eq_getElem_cons hi, hget, List.reverse_cons, List.append_assoc]
    rfl
  | case2 i front hi =>
    have hi : bs.data.toList.length ≤ i := by simpa using hi
    rw [List.drop_of_length_le hi, List.append_nil]

theorem textBytes_eq (s : String) : textBytes s = s.toByteArray.data.toList :=
  toList_loop s.toByteArray 0 []

theorem length_textBytes (s : String) : (textBytes s).length = s.utf8ByteSize := by
  rw [textBytes_eq]
  rfl

/-- The bytes of a text are those of no other text. -/
theorem textOfBytes?_textBytes (s : String) : textOfBytes? (textBytes s) = some s := by
  have hbytes : (textBytes s).toByteArray = s.toByteArray := by
    rw [textBytes_eq]
    exact ByteArray.ext (by rw [List.data_toByteArray, Array.toArray_toList])
  rw [textOfBytes?, hbytes, String.fromUTF8?, dif_pos s.isValidUTF8]
  rfl

def TextFits (s : String) : Prop := (textBytes s).length < lengthLimit

theorem takes_text {s : String} (hs : TextFits s) : Takes readText (writeText s) s :=
  (takes_readBlock hs).thenSettle (textOfBytes?_textBytes s)

/-! ### Lists, optional parts, and names -/

theorem takes_readMany {write : α → Bytes} {xs : List α} (hxs : ∀ x ∈ xs, Takes r (write x) x) :
    Takes (readMany r xs.length) (xs.flatMap write) xs := by
  induction xs with
  | nil => exact takes_settle []
  | cons x xs ih =>
    have hhead := hxs x List.mem_cons_self
    have htail := ih fun y hy => hxs y (List.mem_cons_of_mem x hy)
    have hstep : readMany r (xs.length + 1) =
        andThen r fun x => andThen (readMany r xs.length) fun xs => settle (some (x :: xs)) := by
      funext bs
      rw [readMany, andThen]
      cases r bs with
      | none => rfl
      | some taken =>
        show Option.map _ (readMany r xs.length taken.2) = _
        rw [Option.map_eq_bind]
        rfl
    rw [List.length_cons, hstep, List.flatMap_cons]
    exact hhead.andThen (htail.thenSettle rfl)

theorem takes_list {write : α → Bytes} {xs : List α} (hlength : xs.length < lengthLimit)
    (hxs : ∀ x ∈ xs, Takes r (write x) x) : Takes (readList r) (writeList write xs) xs :=
  (takes_length hlength).andThen (takes_readMany hxs)

theorem takes_option {write : α → Bytes} {o : Option α} (ho : ∀ x ∈ o, Takes r (write x) x) :
    Takes (readOption r) (writeOption write o) o := by
  cases o with
  | none => exact takes_cons (fun _ => none) rfl (fun _ => rfl) (takes_settle ())
  | some x => exact takes_cons some rfl (fun _ => rfl) (ho x rfl)

theorem takes_place [BEq α] [LawfulBEq α] {names : List α} (hx : x ∈ names)
    (hlength : names.length ≤ Nat.pow 256 4) :
    Takes (readPlace names) (writePlace (names.idxOf x)) x := by
  have hplace := List.idxOf_lt_length_of_mem hx
  exact (takes_littleEndian (Nat.lt_of_lt_of_le hplace hlength)).thenSettle
    (by rw [List.getElem?_eq_getElem hplace, List.getElem_idxOf])

theorem mem_statuses (status : Status) : status ∈ statuses := by
  cases status <;> decide

theorem mem_origins (origin : Origin) : origin ∈ origins := by
  cases origin <;> decide

/-! ### Stamps -/

theorem takes_uuid (u : Uuid) : Takes readUuid (writeUuid u) u := by
  have hlength : u.bytes.length < lengthLimit := by
    rw [u.length_eq]
    decide
  exact (takes_readBlock hlength).thenSettle (dif_pos u.length_eq)

theorem takes_timestamp {t : Timestamp} (hfits : TextFits t.toString)
    (hyear : 0 ≤ t.date.year ∧ t.date.year ≤ 9999) (hnanos : t.nanos < 1000000000) :
    Takes readTimestamp (writeText t.toString) t :=
  (takes_text hfits).thenSettle (Timestamp.ofString?_toString hyear hnanos)

/-! ### Events and records -/

theorem readEvent_eq : readEvent = andThen readText fun name => andThen (readPlace origins)
    fun origin => andThen (readOption readText) fun payload =>
      settle (some ⟨name, origin, payload⟩) := rfl

structure EventFits (e : SavedEvent) : Prop where
  name : TextFits e.name
  payload : ∀ text ∈ e.payload, TextFits text

theorem takes_event {e : SavedEvent} (he : EventFits e) : Takes readEvent (writeEvent e) e := by
  have hpayload := takes_option fun text htext => takes_text (he.payload text htext)
  have horigin := takes_place (mem_origins e.origin) (by decide)
  rw [readEvent_eq, writeEvent, List.append_assoc]
  exact (takes_text he.name).andThen (horigin.andThen (hpayload.thenSettle rfl))

structure TextsFit (ss : List String) : Prop where
  length : ss.length < lengthLimit
  item : ∀ s ∈ ss, TextFits s

theorem takes_texts {ss : List String} (hss : TextsFit ss) :
    Takes (readList readText) (writeList writeText ss) ss :=
  takes_list hss.length fun s hs => takes_text (hss.item s hs)

theorem readRecord_eq : readRecord = andThen readText fun name => andThen (readList readText)
    fun states => settle (some (name, states)) := rfl

theorem takes_record {record : String × List String} (hname : TextFits record.1)
    (hstates : TextsFit record.2) : Takes readRecord (writeRecord record) record := by
  rw [readRecord_eq, writeRecord]
  exact (takes_text hname).andThen ((takes_texts hstates).thenSettle rfl)

end Binary

/-! ### The whole checkpoint -/

namespace Checkpoint

open Binary

variable {c : Checkpoint}

/-- No text and no list of the checkpoint has a length that eight bytes do not hold. -/
structure Fits (c : Checkpoint) : Prop where
  timestamp : TextFits c.timestamp.toString
  chart : TextFits c.chart
  active : TextsFit c.active
  records : c.history.entries.length < lengthLimit
  record : ∀ r ∈ c.history.entries, TextFits r.1 ∧ TextsFit r.2
  internal : c.internal.length < lengthLimit ∧ ∀ e ∈ c.internal, EventFits e
  external : c.external.length < lengthLimit ∧ ∀ e ∈ c.external, EventFits e

theorem fits_iff : c.fits = true ↔ c.Fits := by
  simp only [fits, Bool.and_eq_true, List.all_eq_true, Option.all_eq_true, decide_eq_true_iff]
  constructor
  · rintro ⟨⟨⟨⟨⟨timestamp, chart⟩, active⟩, records, record⟩, internal, internals⟩,
      external, externals⟩
    exact {
      timestamp, chart, records
      active := ⟨active.1, active.2⟩
      record := fun r hr => ⟨(record r hr).1, ⟨(record r hr).2.1, (record r hr).2.2⟩⟩
      internal := ⟨internal, fun e he => ⟨(internals e he).1, (internals e he).2⟩⟩
      external := ⟨external, fun e he => ⟨(externals e he).1, (externals e he).2⟩⟩ }
  · intro h
    exact ⟨⟨⟨⟨⟨h.timestamp, h.chart⟩, h.active.length, h.active.item⟩, h.records,
      fun r hr => ⟨(h.record r hr).1, (h.record r hr).2.length, (h.record r hr).2.item⟩⟩,
      h.internal.1, fun e he => ⟨(h.internal.2 e he).name, (h.internal.2 e he).payload⟩⟩,
      h.external.1, fun e he => ⟨(h.external.2 e he).name, (h.external.2 e he).payload⟩⟩

theorem decode_eq : decode =
    andThen (readLittleEndian 4) fun version => andThen readUuid fun id =>
    andThen readTimestamp fun timestamp => andThen readText fun chart =>
    andThen readUuid fun session => andThen (readPlace statuses) fun status =>
    andThen (readList readText) fun active => andThen (readList readRecord) fun records =>
    andThen (readList readEvent) fun internal => andThen (readList readEvent) fun external =>
      settle (some {
        version := UInt32.ofNat version
        id, timestamp, chart, session, status, active, internal, external
        history := OrderedMap.ofWrites records }) := rfl

theorem takes_decode (hfits : c.Fits) (hyear : 0 ≤ c.timestamp.date.year ∧
    c.timestamp.date.year ≤ 9999) (hnanos : c.timestamp.nanos < 1000000000) :
    Takes decode c.encode c := by
  have hversion : Takes (readLittleEndian 4) (littleEndian 4 c.version.toNat) c.version.toNat :=
    takes_littleEndian c.version.toNat_lt
  have hstatus := takes_place (mem_statuses c.status) (by decide)
  have hrecords := takes_list hfits.records fun r hr =>
    takes_record (hfits.record r hr).1 (hfits.record r hr).2
  have hinternal := takes_list hfits.internal.1 fun e he => takes_event (hfits.internal.2 e he)
  have hexternal := takes_list hfits.external.1 fun e he => takes_event (hfits.external.2 e he)
  have hsame : (⟨UInt32.ofNat c.version.toNat, c.id, c.timestamp, c.chart, c.session, c.status,
      c.active, OrderedMap.ofWrites c.history.entries, c.internal, c.external⟩ :
        Checkpoint) = c := by
    rw [UInt32.ofNat_toNat, OrderedMap.ext (OrderedMap.entries_ofWrites c.history.ascending)]
  rw [decode_eq]
  simp only [encode, List.append_assoc]
  exact hversion.andThen <| (takes_uuid c.id).andThen <|
    (takes_timestamp hfits.timestamp hyear hnanos).andThen <| (takes_text hfits.chart).andThen <|
    (takes_uuid c.session).andThen <| hstatus.andThen <| (takes_texts hfits.active).andThen <|
    hrecords.andThen <| hinternal.andThen <| hexternal.thenSettle (congrArg some hsame)

/-- A checkpoint whose lengths can be written has bytes. From them, whatever comes after, the
checkpoint is read, unless it is of another version than the one that is read, and no part of them
is enough. -/
theorem read_back_from_bytes (hfits : c.fits = true) (hyear : 0 ≤ c.timestamp.date.year ∧
    c.timestamp.date.year ≤ 9999) (hnanos : c.timestamp.nanos < 1000000000) :
    ∃ bs, c.toBinary = .ok bs ∧
      (c.version = checkpointVersion → ∀ tail, fromBinary (bs ++ tail) = .ok c) ∧
      (c.version ≠ checkpointVersion →
        ∀ tail, fromBinary (bs ++ tail) = .error (.unsupportedVersion c.version)) ∧
      ∀ p, p <+: bs → p ≠ bs → fromBinary p = .error .deserializationFailed := by
  have htakes := takes_decode (fits_iff.mp hfits) hyear hnanos
  have hwhole (tail : Bytes) : fromBinary (c.encode ++ tail) = c.checkVersion := by
    rw [fromBinary, htakes.whole]
  refine ⟨c.encode, if_pos hfits, fun hversion tail => ?_, fun hversion tail => ?_,
    fun p hp hne => ?_⟩
  · rw [hwhole, checkVersion, if_pos hversion]
  · rw [hwhole, checkVersion, if_neg hversion]
  · rw [fromBinary, htakes.part hp hne]

/-- A player that stopped before, with an event still to come. -/
def paused : Checkpoint where
  version := checkpointVersion
  id := Uuid.nil
  timestamp := ⟨⟨2024, 2, 29, by decide⟩, 43200, 250000000, by decide⟩
  chart := "player"
  session := Uuid.nil
  status := .awaitingExternal
  active := ["off"]
  history := ⟨[("h", ["stopped"])], List.pairwise_singleton _ _⟩
  internal := []
  external := [⟨"power", .external, some "[1, \"é\"]"⟩]

theorem paused_read_back : (paused.fits = true ∧ (0 ≤ paused.timestamp.date.year ∧
    paused.timestamp.date.year ≤ 9999) ∧ paused.timestamp.nanos < 1000000000) ∧
    ∃ bs, paused.toBinary = .ok bs ∧
      (paused.version = checkpointVersion → ∀ tail, fromBinary (bs ++ tail) = .ok paused) ∧
      (paused.version ≠ checkpointVersion →
        ∀ tail, fromBinary (bs ++ tail) = .error (.unsupportedVersion paused.version)) ∧
      ∀ p, p <+: bs → p ≠ bs → fromBinary p = .error .deserializationFailed := by
  have hfits : paused.fits = true := by
    simp only [fits, length_textBytes]
    decide
  have hyear : 0 ≤ paused.timestamp.date.year ∧ paused.timestamp.date.year ≤ 9999 := by decide
  have hnanos : paused.timestamp.nanos < 1000000000 := by decide
  exact ⟨⟨hfits, hyear, hnanos⟩, read_back_from_bytes hfits hyear hnanos⟩

end Checkpoint

end Statechart
