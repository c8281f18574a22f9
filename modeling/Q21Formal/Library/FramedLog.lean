import Q21Formal.Library.Refusal

/-!
# Logs of framed records

An append-only file of records, each in a frame of its length, a checksum and its body.  A scan
tells what an interrupted append leaves at the end, which is cut off, from damage elsewhere, which
is refused.
-/

namespace Q21Formal.Library.FramedLog
open Library.Codec List

variable {α : Type}

/-- How records are written and checked, and the longest run of zeros taken for a torn end. -/
structure Format (α : Type) where
  encode : α → Bytes
  decode : Bytes → Option α
  checksum : Bytes → Bytes
  maxZeros : Nat

/-- A frame fails its checksum with more after it, or holds no record. -/
inductive Corruption where
  | badChecksum (offset : Nat)
  | undecodable (offset : Nat)
deriving DecidableEq, Repr

namespace Format

variable (format : Format α)

section
variable (offset : Nat) (left : Bytes)

def frame (record : α) : Bytes :=
  leBytes 4 (format.encode record).length ++
    (format.checksum (format.encode record) ++ format.encode record)

def frames (records : List α) : Bytes := records.flatMap format.frame

def allZeros : Bool := left.all (· == 0)

/-- Zeros to the end, no more than an interrupted append leaves; more are corruption. -/
def tornZeros : Except Corruption Bool :=
  if allZeros left = false then .ok false
  else if format.maxZeros < left.length then .error (.badChecksum offset)
  else .ok true

/-- The length that bytes starting with a frame give, its checksum, its body and what follows. -/
def lengthField : Nat := leValue (left.take 4)

def checksumField : Bytes := (left.drop 4).take 4

def bodyField : Bytes := (left.drop 8).take (lengthField left)

def following : Bytes := (left.drop 8).drop (lengthField left)

/-- The frame at the front of the bytes left: its record and size, or nothing where the scan
stops. -/
def head : Except Corruption (Option (α × Nat)) := do
  if left.length < 8 then pure none
  else if ← format.tornZeros offset left then pure none
  else if left.length < 8 + lengthField left then pure none
  else if format.checksum (bodyField left) ≠ checksumField left then
    if left.length = 8 + lengthField left then pure none
    else if ← format.tornZeros (offset + (8 + lengthField left)) (following left) then pure none
    else .error (.badChecksum offset)
  else
    match format.decode (bodyField left) with
    | some record => pure (some (record, 8 + lengthField left))
    | none => .error (.undecodable offset)

/-- The records from an offset on, and where they end; a frame takes at least one unit of fuel. -/
def scanFrom : Nat → Nat → Bytes → Except Corruption (List α × Nat)
  | 0, offset, _ => pure ([], offset)
  | fuel + 1, offset, left => do
      match ← format.head offset left with
      | none => pure ([], offset)
      | some (record, size) =>
        let (records, good) ← scanFrom fuel (offset + size) (left.drop size)
        pure (record :: records, good)

/-- The records of a log and the bytes they occupy.  Zeros where no record survives are refused. -/
def scan (raw : Bytes) : Except Corruption (List α × Nat) := do
  let (records, good) ← format.scanFrom raw.length 0 raw
  if records.isEmpty ∧ good < raw.length ∧ allZeros (raw.drop good) = true then
    .error (.badChecksum 0)
  else
    pure (records, good)

/-- Records that can be stored are read back, are not all zeros and fit the length of a frame. -/
structure Lawful (storable : α → Prop) : Prop where
  length_checksum : ∀ body, (format.checksum body).length = 4
  decode_encode : ∀ record, storable record → format.decode (format.encode record) = some record
  marked : ∀ record, storable record → allZeros (format.encode record) = false
  fits : ∀ record, storable record → (format.encode record).length < 2 ^ 32

end

end Format

namespace Format

theorem allZeros_append (first second : Bytes) :
    allZeros (first ++ second) = (allZeros first && allZeros second) := all_append

theorem allZeros_replicate (count : Nat) : allZeros (replicate count 0) = true := by
  simp [allZeros]

variable (format : Format α)

variable {offset : Nat} {left : Bytes}

theorem tornZeros_of_not (marked : allZeros left = false) :
    format.tornZeros offset left = .ok false := if_pos marked

theorem tornZeros_of_zeros (zeros : allZeros left = true)
    (short : left.length ≤ format.maxZeros) : format.tornZeros offset left = .ok true := by
  rw [tornZeros, if_neg (by rw [zeros]; decide), if_neg (Nat.not_lt.mpr short)]

variable {format} {storable : α → Prop} (lawful : format.Lawful storable)

include lawful

/-! ## Intact frames -/

variable {record : α} {offset : Nat} {records : List α} {left : Bytes}

theorem Lawful.length_frame (record : α) :
    (format.frame record).length = 8 + (format.encode record).length := by
  simp only [frame, length_append, leBytes_length, lawful.length_checksum]
  omega

theorem Lawful.frame_marked (stored : storable record) :
    allZeros (format.frame record) = false := by
  rw [frame, allZeros_append, allZeros_append, lawful.marked record stored]
  simp

/-- The parts of the bytes that start with an intact frame. -/
theorem Lawful.frame_fields (stored : storable record) (rest : Bytes) :
    lengthField (format.frame record ++ rest) = (format.encode record).length ∧
      checksumField (format.frame record ++ rest) = format.checksum (format.encode record) ∧
      bodyField (format.frame record ++ rest) = format.encode record ∧
      following (format.frame record ++ rest) = rest := by
  have lengths : (leBytes 4 (format.encode record).length).length = 4 := leBytes_length 4 _
  have checksums := lawful.length_checksum (format.encode record)
  have dropped : (format.frame record ++ rest).drop 4 =
      format.checksum (format.encode record) ++ (format.encode record ++ rest) := by
    simp only [frame, append_assoc]
    exact drop_left' lengths
  have dropped' : (format.frame record ++ rest).drop 8 = format.encode record ++ rest := by
    have split : (format.frame record ++ rest).drop 8 =
        ((format.frame record ++ rest).drop 4).drop 4 := by rw [drop_drop]
    rw [split, dropped]
    exact drop_left' checksums
  have size : lengthField (format.frame record ++ rest) = (format.encode record).length := by
    have taken : (format.frame record ++ rest).take 4 =
        leBytes 4 (format.encode record).length := by
      exact take_left' lengths
    rw [lengthField, taken, leValue_leBytes]
    exact Nat.mod_eq_of_lt (lawful.fits record stored)
  refine ⟨size, ?_, ?_, ?_⟩
  · rw [checksumField, dropped]
    exact take_left' checksums
  · rw [bodyField, dropped', size, take_left]
  · rw [following, dropped', size, drop_left]

theorem Lawful.head_frame (stored : storable record) (offset : Nat) (rest : Bytes) :
    format.head offset (format.frame record ++ rest) =
      .ok (some (record, (format.frame record).length)) := by
  obtain ⟨size, sum, body, -⟩ := lawful.frame_fields stored rest
  have whole := lawful.length_frame record
  have marked : allZeros (format.frame record ++ rest) = false := by
    rw [allZeros_append, lawful.frame_marked stored]
    rfl
  have long : ¬ (format.frame record ++ rest).length < 8 := by
    rw [length_append]
    omega
  have enough : ¬ (format.frame record ++ rest).length < 8 + (format.encode record).length := by
    rw [length_append]
    omega
  simp only [head, if_neg long, tornZeros_of_not format marked, size, sum, body, if_neg enough,
    ne_eq, not_true_eq_false, if_false, lawful.decode_encode record stored, bind, Except.bind,
    Bool.false_eq_true, whole]
  rfl

theorem Lawful.length_frames_ge (records : List α) :
    records.length ≤ (format.frames records).length := by
  induction records with
  | nil => exact Nat.le_refl 0
  | cons record records ih =>
    have first := lawful.length_frame record
    rw [frames, flatMap_cons, length_append, length_cons, ← frames]
    omega

omit lawful in
/-- A frame found has a size that moves the scan on. -/
theorem head_size {size : Nat} (found : format.head offset left = .ok (some (record, size))) :
    0 < size ∧ size ≤ left.length := by
  unfold head at found
  split at found
  · cases found
  cases torn : format.tornZeros offset left with
  | error problem =>
    rw [torn] at found
    cases found
  | ok zeros =>
    rw [torn] at found
    cases zeros with
    | true => cases found
    | false =>
      simp only [bind, Except.bind, Bool.false_eq_true, if_false] at found
      split at found
      · cases found
      split at found
      · split at found
        · cases found
        · split at found
          · cases found
          · split at found <;> cases found
      · split at found
        · cases found
          exact ⟨by omega, by omega⟩
        · cases found

omit lawful in
/-- A scan with enough fuel ends by itself. -/
theorem scanFrom_fuel {fuel : Nat} (enough : left.length ≤ fuel) (extra : Nat) :
    format.scanFrom (fuel + extra) offset left = format.scanFrom fuel offset left := by
  induction fuel generalizing offset left with
  | zero =>
    obtain rfl : left = [] := eq_nil_of_length_eq_zero (Nat.le_zero.mp enough)
    cases extra with
    | zero | succ => rfl
  | succ fuel ih =>
    rw [Nat.succ_add, scanFrom, scanFrom]
    cases found : format.head offset left with
    | error problem => rfl
    | ok result =>
      cases result with
      | none => rfl
      | some entry =>
        obtain ⟨record, size⟩ := entry
        obtain ⟨positive, within⟩ := head_size found
        have shorter : (left.drop size).length ≤ fuel := by
          rw [length_drop]
          omega
        simp only [bind, Except.bind, ih shorter]

section
variable (stored : ∀ record ∈ records, storable record)
include stored

/-- A scan passes over intact frames. -/
theorem Lawful.scanFrom_frames (fuel offset : Nat) (rest : Bytes) :
    format.scanFrom (records.length + fuel) offset (format.frames records ++ rest) = (do
      let (others, good) ← format.scanFrom fuel (offset + (format.frames records).length) rest
      pure (records ++ others, good)) := by
  induction records generalizing offset with
  | nil =>
    rw [length_nil, Nat.zero_add]
    change format.scanFrom fuel offset rest = (do
      let (others, good) ← format.scanFrom fuel offset rest
      pure ([] ++ others, good))
    cases format.scanFrom fuel offset rest <;> rfl
  | cons record records ih =>
    have first := stored record (.head _)
    have others := ih fun other member => stored other (.tail _ member)
    have split : format.frames (record :: records) ++ rest =
        format.frame record ++ (format.frames records ++ rest) := by
      rw [frames, flatMap_cons, append_assoc, ← frames]
    have lengths : (format.frames (record :: records)).length =
        (format.frame record).length + (format.frames records).length := by
      rw [frames, flatMap_cons, length_append, ← frames]
    rw [split, length_cons, Nat.add_right_comm, scanFrom, lawful.head_frame first]
    simp only [bind, Except.bind, drop_left, others, lengths, Nat.add_assoc]
    cases format.scanFrom fuel
      (offset + ((format.frame record).length + (format.frames records).length)) rest <;> rfl

/-- Intact frames are kept whatever a scan finds after them. -/
theorem Lawful.scan_append (some : records ≠ []) (rest : Bytes) :
    format.scan (format.frames records ++ rest) = (do
      let (others, good) ← format.scanFrom rest.length (format.frames records).length rest
      pure (records ++ others, good)) := by
  have counted := lawful.length_frames_ge records
  obtain ⟨extra, fuel⟩ : ∃ extra, (format.frames records ++ rest).length =
      records.length + (rest.length + extra) := by
    refine ⟨(format.frames records).length - records.length, ?_⟩
    rw [length_append]
    omega
  rw [scan, fuel, lawful.scanFrom_frames stored, scanFrom_fuel (Nat.le_refl _), Nat.zero_add]
  cases format.scanFrom rest.length (format.frames records).length rest with
  | error problem => rfl
  | ok result =>
    simp [bind, Except.bind, pure, Except.pure, some]

/-- An intact log is read back whole. -/
theorem Lawful.scan_frames :
    format.scan (format.frames records) = .ok (records, (format.frames records).length) := by
  cases records with
  | nil => rfl
  | cons record records =>
    have whole := lawful.scan_append stored (cons_ne_nil record records) []
    rw [append_nil] at whole
    rw [whole]
    simp [scanFrom, bind, Except.bind, pure, Except.pure]

theorem Lawful.frames_marked (some : records ≠ []) : allZeros (format.frames records) = false := by
  cases records with
  | nil => exact absurd rfl some
  | cons record records =>
    rw [frames, flatMap_cons, allZeros_append,
      lawful.frame_marked (stored record (.head _)), Bool.false_and]

end

omit lawful in
theorem head_mismatch (marked : allZeros left = false)
    (long : 8 ≤ left.length) (within : 8 + lengthField left ≤ left.length)
    (differs : format.checksum (bodyField left) ≠ checksumField left) :
    format.head offset left =
      if left.length = 8 + lengthField left then pure none
      else (do
        if ← format.tornZeros (offset + (8 + lengthField left)) (following left) then pure none
        else .error (.badChecksum offset)) := by
  rw [head, if_neg (Nat.not_lt.mpr long), tornZeros_of_not format marked]
  simp only [bind, Except.bind, Bool.false_eq_true, if_false, if_neg (Nat.not_lt.mpr within),
    if_pos differs]

/-- Bytes of the size of a frame that read as its fields are the frame. -/
theorem Lawful.eq_frame {record : α} {damaged rest : Bytes}
    (sized : damaged.length = (format.frame record).length)
    (body : bodyField (damaged ++ rest) = format.encode record)
    (sum : checksumField (damaged ++ rest) = format.checksum (format.encode record))
    (within : 8 + lengthField (damaged ++ rest) ≤ (damaged ++ rest).length) :
    damaged = format.frame record := by
  have whole := lawful.length_frame record
  have size : lengthField (damaged ++ rest) = (format.encode record).length := by
    rw [← body, bodyField, length_take, length_drop]
    omega
  have first : damaged.take 4 = leBytes 4 (format.encode record).length := by
    have read : leValue (damaged.take 4) = (format.encode record).length := by
      rw [← size, lengthField, take_append_of_le_length (by omega)]
    have back := leBytes_leValue (damaged.take 4)
    rw [length_take, Nat.min_eq_left (by omega), read] at back
    exact back.symm
  have second : (damaged.drop 4).take 4 = format.checksum (format.encode record) := by
    rw [← sum, checksumField, drop_append_of_le_length (by omega),
      take_append_of_le_length (by rw [length_drop]; omega)]
  have third : damaged.drop 8 = format.encode record := by
    have taken := body
    rw [bodyField, size, drop_append_of_le_length (by omega),
      take_append_of_le_length (by rw [length_drop]; omega)] at taken
    rwa [take_of_length_le (by rw [length_drop]; omega)] at taken
  have split : damaged.drop 4 = (damaged.drop 4).take 4 ++ damaged.drop 8 := by
    conv_lhs => rw [← take_append_drop 4 (damaged.drop 4), drop_drop]
  rw [← take_append_drop 4 damaged, split, first, second, third]
  rfl

section
variable {before : List α} (storedBefore : ∀ record ∈ before, storable record)
include storedBefore

/-- What a scan makes of the bytes behind intact frames. -/
theorem Lawful.scan_behind (some : left ≠ []) (marked : allZeros left = false) :
    (∀ problem, format.head (format.frames before).length left = .error problem →
      format.scan (format.frames before ++ left) = .error problem) ∧
    (format.head (format.frames before).length left = .ok none →
      format.scan (format.frames before ++ left) = .ok (before, (format.frames before).length)) := by
  have counted := lawful.length_frames_ge before
  have positive := length_pos_iff.mpr some
  obtain ⟨fuel, enough⟩ : ∃ fuel, (format.frames before ++ left).length =
      before.length + (fuel + 1) := by
    refine ⟨(format.frames before ++ left).length - before.length - 1, ?_⟩
    rw [length_append]
    omega
  rw [scan, enough, lawful.scanFrom_frames storedBefore, Nat.zero_add, scanFrom]
  constructor
  · intro problem stopped
    rw [stopped]
    rfl
  · intro stopped
    rw [stopped]
    simp only [bind, Except.bind, pure, Except.pure, append_nil, drop_left, marked,
      Bool.false_eq_true, and_false, if_false]

/-- A damaged frame is refused, or the log read whole, exactly where the length it gives leads to
bytes that are not a torn end: not zeros alone, or too many of them. -/
theorem Lawful.scan_damaged {after : List α} {record : α} {damaged : Bytes}
    (stored : storable record) (storedAfter : ∀ record ∈ after, storable record) (some : after ≠ [])
    (sized : damaged.length = (format.frame record).length)
    (detected : bodyField (damaged ++ format.frames after) ≠ format.encode record →
      format.checksum (bodyField (damaged ++ format.frames after)) ≠
        checksumField (damaged ++ format.frames after)) :
    ((∃ problem, format.scan (format.frames before ++ (damaged ++ format.frames after)) =
      .error problem) ∨
    ∃ good, format.scan (format.frames before ++ (damaged ++ format.frames after)) =
      .ok (before ++ record :: after, good)) ↔
      allZeros (following (damaged ++ format.frames after)) = false ∨
        format.maxZeros < (following (damaged ++ format.frames after)).length := by
  have whole := lawful.length_frame record
  have afterMarked := lawful.frames_marked storedAfter some
  have marked : allZeros (damaged ++ format.frames after) = false := by
    rw [allZeros_append, afterMarked, Bool.and_false]
  have intact (within : 8 + lengthField (damaged ++ format.frames after) ≤
        (damaged ++ format.frames after).length)
      (same : format.checksum (bodyField (damaged ++ format.frames after)) =
        checksumField (damaged ++ format.frames after)) : damaged = format.frame record := by
    have body := not_not.mp fun different => detected different same
    exact lawful.eq_frame sized body (by rw [← same, body]) within
  have rejoined (unharmed : damaged = format.frame record) :
      format.scan (format.frames before ++ (damaged ++ format.frames after)) =
        .ok (before ++ record :: after, (format.frames (before ++ record :: after)).length) := by
    have joined : format.frames before ++ (damaged ++ format.frames after) =
        format.frames (before ++ record :: after) := by
      rw [unharmed, frames, frames, frames, flatMap_append, flatMap_cons]
    rw [joined]
    refine lawful.scan_frames ?_
    simp only [mem_append, mem_cons]
    rintro other (early | rfl | late)
    · exact storedBefore other early
    · exact stored
    · exact storedAfter other late
  have leads (unharmed : damaged = format.frame record) :
      allZeros (following (damaged ++ format.frames after)) = false := by
    rw [unharmed, (lawful.frame_fields stored (format.frames after)).2.2.2, afterMarked]
  have long : 8 ≤ (damaged ++ format.frames after).length := by
    rw [length_append]
    omega
  generalize damaged ++ format.frames after = left at *
  obtain ⟨refused, stops⟩ := lawful.scan_behind storedBefore
    (ne_nil_of_length_pos (Nat.zero_lt_of_lt long)) marked
  have dropped (stopped : format.head (format.frames before).length left = .ok none) :
      ¬ ((∃ problem, format.scan (format.frames before ++ left) = .error problem) ∨
        ∃ good, format.scan (format.frames before ++ left) =
          .ok (before ++ record :: after, good)) := by
    rw [stops stopped]
    simp
  rcases Nat.lt_or_ge (8 + lengthField left) left.length with within | beyond
  · by_cases same : format.checksum (bodyField left) = checksumField left
    · have unharmed := intact within.le same
      exact iff_of_true (.inr ⟨_, rejoined unharmed⟩) (.inl (leads unharmed))
    · have stopped := @head_mismatch _ format (format.frames before).length left marked long
        within.le same
      rw [if_neg (Nat.ne_of_gt within)] at stopped
      by_cases zeros : allZeros (following left) = false
      · rw [tornZeros_of_not format zeros] at stopped
        exact iff_of_true (.inl ⟨_, refused _ stopped⟩) (.inl zeros)
      · by_cases many : format.maxZeros < (following left).length
        · rw [tornZeros, if_neg zeros, if_pos many] at stopped
          exact iff_of_true (.inl ⟨_, refused _ stopped⟩) (.inr many)
        · rw [tornZeros, if_neg zeros, if_neg many] at stopped
          exact iff_of_false (dropped stopped) (not_or.mpr ⟨zeros, many⟩)
  · -- The frame claims all that is left, or more.
    have nothing : following left = [] := by
      rw [following, drop_drop, drop_of_length_le beyond]
    have stopped : format.head (format.frames before).length left = .ok none := by
      rcases Nat.lt_or_eq_of_le beyond with past | exact'
      · rw [head, if_neg (Nat.not_lt.mpr long), tornZeros_of_not format marked]
        simp only [bind, Except.bind, Bool.false_eq_true, if_false, if_pos past]
        rfl
      · rw [head_mismatch marked long exact'.ge, if_pos exact']
        · rfl
        · intro same
          have ends := leads (intact exact'.ge same)
          rw [nothing] at ends
          cases ends
    rw [nothing]
    exact iff_of_false (dropped stopped) (by simp [allZeros])

end

/-! ## A torn end -/

/-- What an append cut short leaves: the first bytes of its frame, and zeros. -/
def torn (format : Format α) (record : α) (cut zeros : Nat) : Bytes :=
  (format.frame record).take cut ++ replicate zeros 0

section Torn
variable {record : α} {cut zeros : Nat} (short : cut < (format.frame record).length)

include short

omit lawful in
theorem length_torn : (format.torn record cut zeros).length = cut + zeros := by
  rw [torn, length_append, length_take, Nat.min_eq_left (Nat.le_of_lt short), length_replicate]

variable {count : Nat}

omit lawful in
theorem torn_drop (past : cut ≤ count) :
    (format.torn record cut zeros).drop count = replicate (zeros - (count - cut)) 0 := by
  have taken : ((format.frame record).take cut).length = cut := by
    rw [length_take, Nat.min_eq_left (Nat.le_of_lt short)]
  rw [torn, drop_append, drop_of_length_le (by omega), nil_append, taken, drop_replicate]

omit lawful in
theorem torn_take (inside : count ≤ cut) :
    (format.torn record cut zeros).take count = (format.frame record).take count := by
  have taken : ((format.frame record).take cut).length = cut := by
    rw [length_take, Nat.min_eq_left (Nat.le_of_lt short)]
  rw [torn, take_append_of_le_length (by omega), take_take, Nat.min_eq_left inside]

section
variable (stored : storable record)
include stored

/-- The frame that a torn end gives runs past the cut. -/
theorem Lawful.cut_le : cut ≤ 8 + lengthField (format.torn record cut zeros) := by
  rcases Nat.lt_or_ge cut 4 with little | much
  · omega
  · have size := (lawful.frame_fields stored []).1
    rw [append_nil, lengthField] at size
    have whole := lawful.length_frame record
    rw [lengthField, torn_take short much, size]
    omega

/-- What follows that frame are the zeros that are left. -/
theorem Lawful.torn_following :
    ∃ count ≤ zeros, following (format.torn record cut zeros) = replicate count 0 := by
  have past : cut ≤ 8 + lengthField (format.torn record cut zeros) := lawful.cut_le short stored
  refine ⟨zeros - (8 + lengthField (format.torn record cut zeros) - cut), Nat.sub_le _ _, ?_⟩
  rw [following, drop_drop, torn_drop short past]

/-- A torn end whose body reads complete starts with the whole frame. -/
theorem Lawful.frame_prefix (body : bodyField (format.torn record cut zeros) = format.encode record) :
    format.torn record cut zeros =
      format.frame record ++ following (format.torn record cut zeros) := by
  have much : 8 ≤ cut := by
    by_contra little
    have zeroed : allZeros (format.encode record) = true := by
      rw [← body, bodyField, torn_drop short (Nat.le_of_not_le little), take_replicate]
      exact allZeros_replicate _
    rw [lawful.marked record stored] at zeroed
    cases zeroed
  have complete : (format.frame record).drop 8 = format.encode record := by
    have fields := (lawful.frame_fields stored []).2.2.1
    have size := (lawful.frame_fields stored []).1
    have whole := lawful.length_frame record
    rw [append_nil] at fields size
    rwa [bodyField, size, take_of_length_le (by rw [length_drop]; omega)] at fields
  calc format.torn record cut zeros
      = (format.torn record cut zeros).take 8 ++ (format.torn record cut zeros).drop 8 :=
        (take_append_drop 8 _).symm
    _ = (format.frame record).take 8 ++ (bodyField (format.torn record cut zeros) ++
          following (format.torn record cut zeros)) := by
        rw [torn_take short much, bodyField, following, take_append_drop]
    _ = format.frame record ++ following (format.torn record cut zeros) := by
        rw [body, ← complete, ← append_assoc, take_append_drop]

/-- The scan stops at a torn end, unless it spells the whole frame. -/
theorem Lawful.head_torn (offset : Nat) (few : zeros ≤ format.maxZeros)
    (run : allZeros ((format.frame record).take cut) = true → cut + zeros ≤ format.maxZeros)
      (detected : 8 + lengthField (format.torn record cut zeros) ≤ (format.torn record cut
      zeros).length → bodyField (format.torn record cut zeros) ≠ format.encode record →
      format.checksum (bodyField (format.torn record cut zeros)) ≠ checksumField (format.torn record
      cut zeros)) :
    format.head offset (format.torn record cut zeros) = .ok none ∨
      ∃ count ≤ zeros, format.torn record cut zeros = format.frame record ++ replicate count 0 := by
  have total : (format.torn record cut zeros).length = cut + zeros := length_torn short
  rcases Nat.lt_or_ge (format.torn record cut zeros).length 8 with brief | long
  · left
    rw [head, if_pos brief]
    rfl
  cases zeroed : allZeros (format.torn record cut zeros) with
  | true =>
    left
    have fronts : allZeros ((format.frame record).take cut) = true := by
      rw [torn, allZeros_append, Bool.and_eq_true] at zeroed
      exact zeroed.1
    rw [head, if_neg (Nat.not_lt.mpr long),
      tornZeros_of_zeros format zeroed (by rw [total]; exact run fronts)]
    rfl
  | false =>
    obtain ⟨count, fewer, remaining⟩ : ∃ count ≤ zeros,
        following (format.torn record cut zeros) = replicate count 0 :=
      lawful.torn_following short stored
    rcases Nat.lt_or_ge (format.torn record cut zeros).length
      (8 + lengthField (format.torn record cut zeros)) with past | within
    · left
      rw [head, if_neg (Nat.not_lt.mpr long), tornZeros_of_not format zeroed]
      simp only [bind, Except.bind, Bool.false_eq_true, if_false, if_pos past]
      rfl
    by_cases body : bodyField (format.torn record cut zeros) = format.encode record
    · right
      refine ⟨count, fewer, ?_⟩
      rw [← remaining]
      exact lawful.frame_prefix short stored body
    · left
      rw [head_mismatch zeroed long within (detected within body)]
      split
      · rfl
      · rw [remaining, tornZeros_of_zeros format (allZeros_replicate count)
          (by rw [length_replicate]; omega)]
        rfl

end

omit lawful short in
theorem scanFrom_zeros (few : count ≤ format.maxZeros) (fuel : Nat) :
    format.scanFrom fuel offset (replicate count 0) = .ok ([], offset) := by
  have stopped : format.head offset (replicate count 0) = .ok none := by
    rw [head]
    split
    · rfl
    · rw [tornZeros_of_zeros format (allZeros_replicate count)
        (by rw [length_replicate]; exact few)]
      rfl
  cases fuel with
  | zero => rfl
  | succ fuel =>
    rw [scanFrom, stopped]
    rfl

/-- A torn append loses at most its own record. -/
theorem Lawful.scan_torn {records : List α} (storedAll : ∀ record ∈ records, storable record)
    (some : records ≠ []) (stored : storable record) (few : zeros ≤ format.maxZeros)
    (run : allZeros ((format.frame record).take cut) = true → cut + zeros ≤ format.maxZeros)
    (detected : 8 + lengthField (format.torn record cut zeros) ≤
        (format.torn record cut zeros).length →
      bodyField (format.torn record cut zeros) ≠ format.encode record →
      format.checksum (bodyField (format.torn record cut zeros)) ≠
        checksumField (format.torn record cut zeros)) :
    ∃ kept, (kept = records ∨ kept = records ++ [record] ∧
        format.frame record <+: format.torn record cut zeros) ∧
      format.scan (format.frames records ++ format.torn record cut zeros) =
        .ok (kept, (format.frames kept).length) := by
  rcases lawful.head_torn short stored (format.frames records).length few run detected with
    stopped | ⟨count, fewer, complete⟩
  · refine ⟨records, .inl rfl, ?_⟩
    have none : format.scanFrom (format.torn record cut zeros).length
        (format.frames records).length (format.torn record cut zeros) =
          .ok ([], (format.frames records).length) := by
      cases (format.torn record cut zeros).length with
      | zero => rfl
      | succ fuel =>
        rw [scanFrom, stopped]
        rfl
    rw [lawful.scan_append storedAll some, none]
    simp [bind, Except.bind, pure, Except.pure]
  · refine ⟨records ++ [record], .inr ⟨rfl, complete ▸ prefix_append _ _⟩, ?_⟩
    have longer : format.frames records ++ format.torn record cut zeros =
        format.frames (records ++ [record]) ++ replicate count 0 := by
      rw [complete, frames, frames, flatMap_append, flatMap_singleton, append_assoc]
    have storedMore : ∀ other ∈ records ++ [record], storable other := by
      simp only [mem_append, mem_singleton]
      rintro other (among | rfl)
      · exact storedAll other among
      · exact stored
    rw [longer, lawful.scan_append storedMore (by simp), scanFrom_zeros (fewer.trans few)]
    simp [bind, Except.bind, pure, Except.pure]

end Torn

end Format

end Q21Formal.Library.FramedLog
