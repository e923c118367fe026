import KevinDb.Aggregate.Scan
import KevinDb.Lib.Machine

namespace KevinDb
set_option autoImplicit true

/-- `rollup_time_bucket`, with its product as a machine integer. -/
def rollupTimeBucketI64 (startTimeUnixNano : Int) : Option Int :=
  inBounds i64Min i64Max (startTimeUnixNano / bucketNanos * bucketNanos)

/-- `time_bucket`, with its product as a machine integer. -/
def timeBucketI64 (startTimeUnixNano : Int) (bucket : Option Int) : Option Int :=
  let bucket := max (bucket.getD bucketNanos) 1
  inBounds i64Min i64Max (startTimeUnixNano / bucket * bucket)

/-- The buckets of a record: the three of an hour are the same, none overflows, nor does the one
of the given size, and the time of the record is in them. -/
structure BucketsAgree (record : SpanRecord) (size : Int) : Prop where
  rollup : rollupTimeBucketI64 record.startTimeUnixNano =
    some (recordPartitionKey record).timeBucketStartUnixNano
  aggregate : timeBucketI64 record.startTimeUnixNano (some bucketNanos) =
    some (recordPartitionKey record).timeBucketStartUnixNano
  holds : (recordPartitionKey record).timeBucketStartUnixNano ≤ record.startTimeUnixNano ∧
    record.startTimeUnixNano - (recordPartitionKey record).timeBucketStartUnixNano < bucketNanos
  sized : ∃ bucket, timeBucketI64 record.startTimeUnixNano (some size) = some bucket ∧
    bucket ≤ record.startTimeUnixNano ∧ record.startTimeUnixNano - bucket < size

variable {time size : Int}

/-- The bucket of a time overflows if it starts before the least time. -/
theorem bucket_inBounds (htime : i64Min ≤ time ∧ time ≤ i64Max) (hsize : 0 < size) :
    inBounds i64Min i64Max (time / size * size) =
      if i64Min + time % size ≤ time then some (time / size * size) else none := by
  have hsplit := Int.ediv_mul_add_emod time size
  have hrest := Int.emod_nonneg time hsize.ne'
  rw [inBounds]
  apply if_congr _ rfl rfl
  omega

theorem timeBucketI64_eq (hsize : 0 < size) :
    timeBucketI64 time (some size) = inBounds i64Min i64Max (time / size * size) := by
  have hmax : max size 1 = size := by omega
  rw [timeBucketI64, Option.getD_some, hmax]

/-- The bucket that the records are partitioned by is the one of the rollups, unless that one
overflows. -/
theorem recordPartitionKey_bucket {record : SpanRecord}
    (htime : i64Min ≤ record.startTimeUnixNano ∧ record.startTimeUnixNano ≤ i64Max)
    (hstart : i64Min + record.startTimeUnixNano % bucketNanos ≤ record.startTimeUnixNano) :
    (recordPartitionKey record).timeBucketStartUnixNano =
      record.startTimeUnixNano / bucketNanos * bucketNanos := by
  have hsplit := Int.ediv_mul_add_emod record.startTimeUnixNano bucketNanos
  have hrest := Int.emod_nonneg record.startTimeUnixNano (b := bucketNanos) (by decide)
  change saturatingMul (record.startTimeUnixNano / bucketNanos) bucketNanos = _
  rw [saturatingMul]
  omega

/-- The buckets agree exactly if neither the hour nor the bucket of the given size that the start
time is in begins before the least time. -/
theorem buckets_agree_iff (record : SpanRecord) (size : Int)
    (htime : i64Min ≤ record.startTimeUnixNano ∧ record.startTimeUnixNano ≤ i64Max)
    (hsize : 0 < size) :
    BucketsAgree record size ↔
      i64Min + record.startTimeUnixNano % bucketNanos ≤ record.startTimeUnixNano ∧
        i64Min + record.startTimeUnixNano % size ≤ record.startTimeUnixNano := by
  have hhour : 0 < bucketNanos := by decide
  constructor
  · rintro ⟨hrollup, -, -, bucket, hsized, -⟩
    rw [rollupTimeBucketI64, bucket_inBounds htime hhour, Option.ite_none_right_eq_some] at hrollup
    rw [timeBucketI64_eq hsize, bucket_inBounds htime hsize,
      Option.ite_none_right_eq_some] at hsized
    exact ⟨hrollup.1, hsized.1⟩
  · rintro ⟨hhourStart, hsizeStart⟩
    have hkey := recordPartitionKey_bucket htime hhourStart
    refine ⟨?_, ?_, ?_, _, ?_, bucket_contains _ hsize⟩
    · rw [hkey, rollupTimeBucketI64, bucket_inBounds htime hhour, if_pos hhourStart]
    · rw [hkey, timeBucketI64_eq hhour, bucket_inBounds htime hhour, if_pos hhourStart]
    · rw [hkey]
      exact bucket_contains _ hhour
    · rw [timeBucketI64_eq hsize, bucket_inBounds htime hsize, if_pos hsizeStart]

/-- The buckets of an hour and of a minute agree a nanosecond before the epoch. -/
theorem buckets_agree_before_epoch :
    BucketsAgree (SpanRecord.sample "t" "s" "n" .«end» (-1) 10) 60000000000 :=
  (buckets_agree_iff (SpanRecord.sample "t" "s" "n" .«end» (-1) 10) 60000000000 (by decide)
    (by decide)).2 (by decide)

/-- The least time is in an hour that begins before it. -/
theorem buckets_overflow : rollupTimeBucketI64 i64Min = none ∧
    timeBucketI64 i64Min (some bucketNanos) = none ∧
    ¬ BucketsAgree (SpanRecord.sample "t" "s" "n" .«end» i64Min 10) bucketNanos := by
  refine ⟨by decide, by decide, fun hagree => ?_⟩
  have hrollup := hagree.rollup
  rw [show rollupTimeBucketI64 (SpanRecord.sample "t" "s" "n" .«end» i64Min 10).startTimeUnixNano =
    none by decide] at hrollup
  cases hrollup

end KevinDb
