import Q21Formal.Ledger.Chain

/-!
# The header store

The headers of the active chain after a magic and a version.  An append may stop after any of its
bytes; `load` cuts what it does not understand and copies a damaged genesis over.
-/

namespace Q21Formal.Storage
open Library.Codec Library.Refusal Primitives Ledger List

inductive StoreError where
  | unreadableBlock (index : Nat)
  | truncatedFile (index : Nat)
  | blockTooLarge (index size : Nat)
  | foreignGenesis (expected seen : Hash256)
  | headersMagic
  /-- Not an error of the source: a height one past the last stops the process. -/
  | heightOverflow
  deriving DecidableEq

namespace HeaderStore

section
variable (file : Option Bytes) (headers : List BlockHeader) (header : BlockHeader) (nonce : UInt64)

def headersMagic : Bytes := [0x51, 0x32, 0x31, 0x48, 0x44, 0x52, 0x53, 0]
def headersVersion : Nat := 1
def headersPrefixLen : Nat := 12

/-- What a new file starts with. -/
def headersOpening : Bytes := headersMagic ++ leBytes 4 headersVersion

def encodeHeaders : Bytes := headers.flatMap BlockHeader.encode

/-! ## Appending -/

def isNew : Bool := file.all fun content => content.length < headersPrefixLen

/-- The bytes an append hands to the file. -/
def appendBytes : Bytes :=
  (if isNew file then headersOpening else []) ++ encodeHeaders headers

def append : Option Bytes :=
  if headers.isEmpty then file else some (file.getD [] ++ appendBytes file headers)

/-- An append that is cut after some of its bytes. -/
def tornAppend (cut : Nat) : Option Bytes :=
  some (file.getD [] ++ (appendBytes file headers).take cut)

/-- What a sound file holds. -/
def stored : Bytes := headersOpening ++ encodeHeaders headers

theorem isNew_stored : isNew (some (stored headers)) = false := by
  have long : ¬ (stored headers).length < headersPrefixLen := by
    rw [stored, length_append]
    exact Nat.not_lt.mpr (Nat.le_add_right _ _)
  simp [isNew, long]

theorem append_stored (headers further : List BlockHeader) :
    append (some (stored headers)) further = some (stored (headers ++ further)) := by
  cases further with
  | nil => simp [append]
  | cons header rest =>
    have written : appendBytes (some (stored headers)) (header :: rest) =
        encodeHeaders (header :: rest) := by
      simp [appendBytes, isNew_stored]
    rw [append, if_neg (by simp), written]
    simp [stored, encodeHeaders]

/-- Whole appends, one after the other, leave their headers in the file. -/
theorem foldl_append (batches : List (List BlockHeader)) (file : Option Bytes)
    (headers : List BlockHeader)
    (holds : file = if headers = [] then none else some (stored headers)) :
    batches.foldl append file =
      if headers ++ batches.flatten = [] then none
      else some (stored (headers ++ batches.flatten)) := by
  induction batches generalizing file headers with
  | nil => simpa using holds
  | cons batch batches ih =>
    rw [foldl_cons, ih _ (headers ++ batch), flatten_cons, append_assoc]
    subst holds
    by_cases empty : headers = []
    · subst empty
      cases batch with
      | nil | cons => rfl
    · simp [empty, append_stored]

section Load
variable [Crypto]

/-- The header does not follow the previous one. -/
def breaksLink : Option BlockHeader → Except StoreError Bool
  | none => .ok false
  | some previous => do
      if header.prevBlock ≠ previous.blockId then
        return true
      require (previous.height.toNat + 1 < 2 ^ 64) .heightOverflow
      return header.height.toNat ≠ previous.height.toNat + 1

/-- The loop of `load`: the headers that can be trusted, and the first doubtful index. -/
def readHeaders : Nat → Nat → Option BlockHeader → Bytes →
    Except StoreError (List BlockHeader × Option Nat)
  | 0, _, _, _ => .ok ([], none)
  | count + 1, index, previous, left =>
    match BlockHeader.decode (left.take headerSize) with
    | .error _ => .ok ([], some index)
    | .ok header => do
        if ← breaksLink header previous then
          return ([], some index)
        let (headers, doubtful) ← readHeaders count (index + 1) (some header) (left.drop headerSize)
        return (header :: headers, doubtful)

def genesisDoubtful (expected : Hash256) (count : Nat) : Option Hash256 → Bool
  | some seen => seen ≠ expected
  | none => 1 ≤ count

/-- The second header links to the genesis of the network. -/
def linksToReal (expected : Hash256) (second : Bytes) : Bool :=
  match BlockHeader.decode second with
  | .ok header => header.prevBlock = expected ∧ header.height = 1
  | .error _ => false

/-- One reading of what follows the version: what `load` returns, unless it reads again, and what
the file then holds. -/
def loadBody (body : Bytes) : Option (Except StoreError (List BlockHeader)) × Bytes :=
  let count := body.length / headerSize
  let clean := body.take (count * headerSize)
  match readHeaders count 0 none clean with
  | .error stopped => (some (.error stopped), clean)
  | .ok (headers, doubtful) =>
    let canonical := (genesisBlock nonce).header
    let seen := headers.head?.map BlockHeader.blockId
    if genesisDoubtful canonical.blockId count seen then
      if 2 ≤ count ∧ linksToReal canonical.blockId ((clean.drop headerSize).take headerSize) then
        (none, canonical.encode ++ clean.drop headerSize)
      else
        (some (.error (seen.elim (.unreadableBlock 0) (.foreignGenesis canonical.blockId))), clean)
    else
      (some (.ok headers), clean.take (doubtful.elim count id * headerSize))

def loadOnce (content : Bytes) : Option (Except StoreError (List BlockHeader)) × Bytes :=
  if content.length < headersPrefixLen ∨ content.take 8 ≠ headersMagic ∨
      leValue ((content.drop 8).take 4) ≠ headersVersion then
    (some (.error .headersMagic), content)
  else
    let (result, body) := loadBody nonce (content.drop headersPrefixLen)
    (result, content.take headersPrefixLen ++ body)

/-- `load`, which calls itself after a repair of the genesis. -/
def load (nonce : UInt64) : Nat → Option Bytes →
    Option (Except StoreError (List BlockHeader) × Option Bytes)
  | 0, _ => none
  | _ + 1, none => some (.ok [], none)
  | fuel + 1, some content =>
    match loadOnce nonce content with
    | (some result, content) => some (result, some content)
    | (none, content) => load nonce fuel (some content)

end Load

end

section Chains
variable [Crypto] {cut content : Bytes} {fuel : Nat}

def Links (previous header : BlockHeader) : Prop :=
  header.prevBlock = previous.blockId ∧ header.height.toNat = previous.height.toNat + 1

instance (previous header : BlockHeader) : Decidable (Links previous header) :=
  inferInstanceAs (Decidable (_ ∧ _))

theorem Links.fits {previous header : BlockHeader} (links : Links previous header) :
    previous.height.toNat + 1 < 2 ^ 64 := by
  rw [← links.2]
  exact header.height.toNat_lt

variable {nonce : UInt64} {headers : List BlockHeader}

variable {previous : Option BlockHeader}

section Damage
variable {header : BlockHeader} {after : List BlockHeader} {damaged : Bytes}
  (size : damaged.length = headerSize)
  (apart : ∀ other : BlockHeader, other.encode = damaged → other.blockId ≠ header.blockId)
  (links : (header :: after).IsChain Links)

include size apart links

end Damage

/-! ## The store survives -/

end Chains

/-- A header torn inside its nonce and one appended behind it: the two together still link, and a
header that was never appended is returned. -/
theorem torn_nonce_accepted :
    letI : Crypto := checksumCrypto
    let first := (genesisBlock 0).header
    let second := (firstBlock 0).header
    ∃ other ∉ [first, second], load 0 2 (append (tornAppend (some (stored [first])) [second] 156)
      [second]) = some (.ok [first, other], some (stored [first, other])) := by
  let _ := checksumCrypto
  refine ⟨{ (firstBlock 0).header with nonce := 0x100000000 }, ?_, ?_⟩
  · decide +kernel
  · decide +kernel

end HeaderStore

end Q21Formal.Storage
