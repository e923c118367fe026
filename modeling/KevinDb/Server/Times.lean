import KevinDb.Lib.Machine
import KevinDb.Lib.Text
import KevinDb.Record

namespace KevinDb
set_option autoImplicit true

/-- A time in seconds and nanoseconds since the epoch. -/
structure DateTime where
  timestamp : Int
  subsecNanos : Nat
deriving DecidableEq, Repr

def secondNanos : Int := 1000000000

/-- The instant of a time, in nanoseconds. -/
def DateTime.nanos (time : DateTime) : Int := time.timestamp * secondNanos + time.subsecNanos

/-- What the server uses of the library of times. -/
structure Chrono where
  parseFromRfc3339 : String → Except String DateTime
  fromTimestamp : Int → Nat → Option DateTime
  toRfc3339Nanos : DateTime → String

/-- The times that nanoseconds in 64 bits reach. -/
def DateTime.InRange (time : DateTime) : Prop :=
  (i64Min / secondNanos ≤ time.timestamp ∧ time.timestamp ≤ i64Max / secondNanos) ∧
    time.subsecNanos < 1000000000

/-- The library makes and formats the times in range, and reads what it formats. -/
structure Chrono.Exact (chrono : Chrono) : Prop where
  fromTimestamp (time : DateTime) (htime : time.InRange) :
    chrono.fromTimestamp time.timestamp time.subsecNanos = some time
  parse_format (time : DateTime) (htime : time.InRange) :
    chrono.parseFromRfc3339 (chrono.toRfc3339Nanos time) = .ok time

/-- `checked_mul` and `checked_add` of `parse_time_nanos`. -/
def DateTime.checkedNanos (time : DateTime) : Option Int :=
  (inBounds i64Min i64Max (time.timestamp * secondNanos)).bind fun seconds =>
    inBounds i64Min i64Max (seconds + time.subsecNanos)

/-- `parse_time_nanos`, with the texts of its bad requests. -/
def parseTimeNanos (chrono : Chrono) : Option String → Except String (Option Int)
  | none => .ok none
  | some value =>
    match chrono.parseFromRfc3339 value with
    | .error error => .error ("timestamp must be RFC3339: " ++ error)
    | .ok datetime =>
      match datetime.checkedNanos with
      | none => .error "timestamp is out of range"
      | some nanos => .ok (some nanos)

/-- `unix_nano_to_rfc3339`. -/
def unixNanoToRfc3339 (chrono : Chrono) (nanos : Int) : String :=
  chrono.toRfc3339Nanos
    ((chrono.fromTimestamp (nanos / secondNanos) (nanos % secondNanos).toNat).getD ⟨0, 0⟩)

variable {chrono : Chrono} {nanos : Int} {time : DateTime} {text : String}

/-- The time of an instant. -/
def DateTime.ofNanos (nanos : Int) : DateTime := ⟨nanos / secondNanos, (nanos % secondNanos).toNat⟩

theorem DateTime.nanos_ofNanos (nanos : Int) : (DateTime.ofNanos nanos).nanos = nanos := by
  have hrest := Int.emod_nonneg nanos (b := secondNanos) (by decide)
  have hsplit := Int.ediv_mul_add_emod nanos secondNanos
  rw [DateTime.nanos, DateTime.ofNanos, Int.toNat_of_nonneg hrest]
  exact hsplit

theorem DateTime.inRange_ofNanos (hnanos : i64Min ≤ nanos ∧ nanos ≤ i64Max) :
    (DateTime.ofNanos nanos).InRange := by
  have hpos : 0 < secondNanos := by decide
  have hrest := Int.emod_lt_of_pos nanos hpos
  refine ⟨⟨Int.ediv_le_ediv hpos hnanos.1, Int.ediv_le_ediv hpos hnanos.2⟩, ?_⟩
  change (nanos % secondNanos).toNat < 1000000000
  rw [secondNanos] at hrest ⊢
  omega

/-- The parts of a time are put together unless its seconds are out of range on their own. -/
theorem DateTime.checkedNanos_eq (hnanos : i64Min ≤ time.nanos ∧ time.nanos ≤ i64Max) :
    time.checkedNanos = if i64Min ≤ time.timestamp * secondNanos then some time.nanos else none := by
  rw [DateTime.nanos] at hnanos ⊢
  rw [DateTime.checkedNanos, inBounds]
  by_cases hseconds : i64Min ≤ time.timestamp * secondNanos
  · rw [if_pos ⟨hseconds, by omega⟩, if_pos hseconds]
    exact inBounds_of_mem hnanos
  · rw [if_neg fun h => hseconds h.1, if_neg hseconds]
    rfl

theorem parseTimeNanos_eq_ok (hparse : chrono.parseFromRfc3339 text = .ok time)
    (hnanos : i64Min ≤ time.nanos ∧ time.nanos ≤ i64Max) :
    parseTimeNanos chrono (some text) = .ok (some time.nanos) ↔
      i64Min ≤ time.timestamp * secondNanos := by
  rw [parseTimeNanos, hparse]
  dsimp only
  rw [DateTime.checkedNanos_eq hnanos]
  by_cases hseconds : i64Min ≤ time.timestamp * secondNanos
  · rw [if_pos hseconds]
    exact iff_of_true rfl hseconds
  · rw [if_neg hseconds]
    exact iff_of_false nofun hseconds

theorem Chrono.Exact.parse_unixNano (h : chrono.Exact)
    (hnanos : i64Min ≤ nanos ∧ nanos ≤ i64Max) :
    chrono.parseFromRfc3339 (unixNanoToRfc3339 chrono nanos) = .ok (.ofNanos nanos) := by
  have hrange := DateTime.inRange_ofNanos hnanos
  have htime : chrono.fromTimestamp (nanos / secondNanos) (nanos % secondNanos).toNat =
      some (.ofNanos nanos) := h.fromTimestamp _ hrange
  rw [unixNanoToRfc3339, htime]
  exact h.parse_format _ hrange

/-- A timestamp comes back exactly if it is not before the first whole second in range, and a text
is read as its instant exactly if the whole second of the instant is not. -/
theorem timestamps_round_trip_iff (chrono : Chrono) (h : chrono.Exact) :
    (∀ nanos : Int, i64Min ≤ nanos ∧ nanos ≤ i64Max →
      (parseTimeNanos chrono (some (unixNanoToRfc3339 chrono nanos)) = .ok (some nanos) ↔
        -9223372036000000000 ≤ nanos)) ∧
    ∀ (text : String) (time : DateTime), chrono.parseFromRfc3339 text = .ok time →
      i64Min ≤ time.nanos ∧ time.nanos ≤ i64Max →
      (parseTimeNanos chrono (some text) = .ok (some time.nanos) ↔
        -9223372036 ≤ time.timestamp) := by
  constructor
  · intro nanos hnanos
    have htime : i64Min ≤ (DateTime.ofNanos nanos).nanos ∧
        (DateTime.ofNanos nanos).nanos ≤ i64Max := by rwa [DateTime.nanos_ofNanos]
    have hiff := parseTimeNanos_eq_ok (h.parse_unixNano hnanos) htime
    rw [DateTime.nanos_ofNanos] at hiff
    rw [hiff]
    change i64Min ≤ nanos / 1000000000 * 1000000000 ↔ _
    rw [i64Min]
    omega
  · intro text time hparse hnanos
    rw [parseTimeNanos_eq_ok hparse hnanos, i64Min, secondNanos]
    omega

def epochText : String := "1970-01-01T00:00:00.000000000Z"

def leastText : String := "1677-09-21T00:12:43.145224192Z"

/-- The epoch and the least time are formatted as RFC 3339 has it, and the other times by their
parts. -/
def Chrono.sample : Chrono where
  parseFromRfc3339 text :=
    if text = epochText then .ok (.ofNanos 0)
    else if text = leastText then .ok (.ofNanos i64Min)
    else
      match splitN ':' 2 text.toList with
      | [seconds, nanos] =>
        match parseI64 (.ofList seconds), parseUsize (.ofList nanos) with
        | some timestamp, some subsecNanos => .ok ⟨timestamp, subsecNanos⟩
        | _, _ => .error "input contains invalid characters"
      | _ => .error "premature end of input"
  fromTimestamp timestamp subsecNanos :=
    if subsecNanos < 2000000000 then some ⟨timestamp, subsecNanos⟩ else none
  toRfc3339Nanos time :=
    if time = .ofNanos 0 then epochText
    else if time = .ofNanos i64Min then leastText
    else toString time.timestamp ++ ":" ++ toString time.subsecNanos

/-- The parts of a time are not taken for a formatted time. -/
theorem parts_ne_of_mem (hmem : 'T' ∈ text.toList) (time : DateTime) :
    toString time.timestamp ++ ":" ++ toString time.subsecNanos ≠ text := by
  rintro rfl
  rw [String.toList_append, String.toList_append, List.mem_append, List.mem_append] at hmem
  rcases hmem with (hmem | hmem) | hmem
  · exact not_mem_toString_int (by decide) (by decide) _ hmem
  · revert hmem
    decide
  · exact not_mem_toString_nat (by decide) _ hmem

theorem Chrono.sample_exact : Chrono.sample.Exact where
  fromTimestamp time htime := if_pos (htime.2.trans (by decide))
  parse_format time htime := by
    change Chrono.sample.parseFromRfc3339 (if time = .ofNanos 0 then epochText
      else if time = .ofNanos i64Min then leastText
      else toString time.timestamp ++ ":" ++ toString time.subsecNanos) = _
    split
    · next hzero =>
      rw [hzero]
      rfl
    · split
      · next hleast =>
        rw [hleast]
        rfl
      · have htext : (toString time.timestamp ++ ":" ++ toString time.subsecNanos).toList =
            (toString time.timestamp).toList ++ ':' :: (toString time.subsecNanos).toList := by
          rw [String.toList_append, String.toList_append, List.append_assoc]
          rfl
        have hseconds : -2 ^ 63 ≤ time.timestamp ∧ time.timestamp ≤ 2 ^ 63 - 1 := by
          have hrange := htime.1
          rw [i64Min, i64Max, secondNanos] at hrange
          omega
        have hnanos : time.subsecNanos < 2 ^ 64 := htime.2.trans (by decide)
        rw [Chrono.sample]
        dsimp only
        rw [if_neg (parts_ne_of_mem (by decide) time), if_neg (parts_ne_of_mem (by decide) time),
          htext, splitN_cons (not_mem_toString_int (by decide) (by decide) _), splitN]
        dsimp only
        rw [String.ofList_toList, String.ofList_toList, parseI64_toString hseconds,
          parseUsize_toString hnanos]

/-- The epoch comes back. -/
theorem timestamps_round_trip_epoch : unixNanoToRfc3339 .sample 0 = epochText ∧
    parseTimeNanos .sample (some (unixNanoToRfc3339 .sample 0)) = .ok (some 0) :=
  ⟨by decide +kernel, ((timestamps_round_trip_iff .sample Chrono.sample_exact).1 0 (by decide)).2
    (by decide)⟩

/-- The least time does not. -/
theorem least_timestamp_rejected : unixNanoToRfc3339 .sample i64Min = leastText ∧
    parseTimeNanos .sample (some (unixNanoToRfc3339 .sample i64Min)) =
      .error "timestamp is out of range" := by
  decide +kernel

end KevinDb
