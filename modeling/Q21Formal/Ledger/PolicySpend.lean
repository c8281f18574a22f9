import Q21Formal.Ledger.Validation

/-!
# What a policy spend proves, and what digests bind

Which satisfactions open a policy, leaf by leaf, at a given height: the verifier accepts exactly
their encodings.  Where no two of the inputs hashed collide, an identifier determines its
transaction up to witnesses, and a signed digest everything it is made over.  A signer numbers the
leaves on its own, and the relay counts verifications first; both agree with the verifier's walk.
-/

namespace Q21Formal.Ledger
open Library.Codec Library.Refusal Primitives List

def Path.join (first second : Path) : Path where
  keys := first.keys ++ second.keys
  minAge := max first.minAge second.minAge
  minHeight := max first.minHeight second.minHeight
  choices := first.choices ++ second.choices

@[simp] theorem Path.join_empty (path : Path) : path.join {} = path := by
  simp [Path.join]

theorem Path.join_assoc (first second third : Path) :
    (first.join second).join third = first.join (second.join third) := by
  simp [Path.join, max_assoc]

theorem Path.availableAt_join (first second : Path) (born : Nat) :
    (first.join second).availableAt born =
      max (first.availableAt born) (second.availableAt born) := by
  simp only [Path.availableAt, Path.join]
  rcases Nat.eq_zero_or_pos first.minAge with none | some <;>
    rcases Nat.eq_zero_or_pos second.minAge with none' | some' <;>
    simp only [*, lt_max_iff, true_or, or_true, lt_irrefl, or_self, if_true, if_false] <;> omega

section Satisfying
variable [Crypto]

mutual

/-- The satisfaction has the shape of the policy and opens every leaf on its path; the first leaf
has position `leaf` in the whole tree. -/
def Satisfies (signs : KeyUse → Prop) (born height : Nat) : Policy → Satisfaction → Nat → Prop
  | .key scheme hash, .key pubkey signature, leaf => signs ⟨leaf, scheme, hash, pubkey, signature⟩
  | .preimage hash, .preimage secret, _ => Crypto.sha256 secret.bytes = hash
  | .older blocks, .older, _ => saturatingAdd born blocks.toNat ≤ height
  | .after least, .after, _ => least.toNat ≤ height
  | .all children, .all parts, leaf => SatisfiesAll signs born height children parts leaf
  | .any children, .any index branch, leaf =>
    SatisfiesChild signs born height children index.toNat branch leaf
  | _, _, _ => False

/-- Every child by its own part. -/
def SatisfiesAll (signs : KeyUse → Prop) (born height : Nat) :
    List Policy → List Satisfaction → Nat → Prop
  | [], [], _ => True
  | child :: rest, part :: parts, leaf =>
    Satisfies signs born height child part leaf ∧
      SatisfiesAll signs born height rest parts (leaf + child.leafCount)
  | _, _, _ => False

/-- The one chosen child. -/
def SatisfiesChild (signs : KeyUse → Prop) (born height : Nat) :
    List Policy → Nat → Satisfaction → Nat → Prop
  | [], _, _, _ => False
  | child :: _, 0, branch, leaf => Satisfies signs born height child branch leaf
  | child :: rest, index + 1, branch, leaf =>
    SatisfiesChild signs born height rest index branch (leaf + child.leafCount)

end

/-- The key hashes to the committed one, and its signature is valid for the leaf's message. -/
def SignsLeaf (tx : Transaction) (inputIndex : Nat) (network : Network) (spent : TxOut)
    (policy choices : Bytes) (use : KeyUse) : Prop :=
  pubkeyHash use.scheme use.pubkey = use.hash ∧ verify use.scheme use.pubkey
      (tx.policySighash (UInt32.ofNat inputIndex) network spent policy (UInt8.ofNat use.leaf)
        choices) use.signature = .ok ()

/-! ## What the walk collects -/

mutual

/-- The same, from the satisfaction as a tree instead of bytes. -/
def collect : Policy → Satisfaction → Nat → Option Path
  | .key scheme hash, .key pubkey signature, leaf =>
    if checkSizes scheme pubkey signature = .ok () then
      some { keys := [⟨leaf, scheme, hash, pubkey, signature⟩] }
    else none
  | .preimage hash, .preimage secret, _ =>
    if Crypto.sha256 secret.bytes = hash then some {} else none
  | .older blocks, .older, _ => some { minAge := blocks.toNat }
  | .after least, .after, _ => some { minHeight := least.toNat }
  | .all children, .all parts, leaf => collectAll children parts leaf
  | .any children, .any index branch, leaf =>
    (collectChild children index.toNat branch leaf).map (Path.join { choices := [index] })
  | _, _, _ => none

def collectAll : List Policy → List Satisfaction → Nat → Option Path
  | [], [], _ => some {}
  | child :: rest, part :: parts, leaf => do
      let first ← collect child part leaf
      let later ← collectAll rest parts (leaf + child.leafCount)
      pure (first.join later)
  | _, _, _ => none

def collectChild : List Policy → Nat → Satisfaction → Nat → Option Path
  | [], _, _, _ => none
  | child :: _, 0, branch, leaf => collect child branch leaf
  | child :: rest, index + 1, branch, leaf =>
    collectChild rest index branch (leaf + child.leafCount)

end

theorem collectAll_cons {child : Policy} {others : List Policy} {part : Satisfaction}
    {parts : List Satisfaction} {leaf : Nat} {path : Path} :
    collectAll (child :: others) (part :: parts) leaf = some path ↔
      ∃ first, collect child part leaf = some first ∧ ∃ later,
        collectAll others parts (leaf + child.leafCount) = some later ∧ first.join later = path := by
  simp only [collectAll, Option.bind_eq_bind, Option.bind_eq_some_iff, Option.pure_def,
    Option.some.injEq]

theorem collectChild_inside {children : List Policy} {index leaf : Nat} {branch : Satisfaction}
    {path : Path} (chosen : collectChild children index branch leaf = some path) :
    index < children.length := by
  induction children generalizing index leaf with
  | nil => cases chosen
  | cons child rest ih =>
    cases index with
    | zero => exact Nat.succ_pos _
    | succ index => exact Nat.succ_lt_succ (ih chosen)

omit [Crypto] in
theorem checkSizes_eq_ok {scheme : SchemeId} {pubkey signature : Bytes} {done : Unit} :
    checkSizes scheme pubkey signature = .ok done ↔
      pubkey.length = scheme.pubkeyLen ∧ signature.length = scheme.sigLen := by
  unfold checkSizes
  split
  · simp_all
  · split <;> simp_all

omit [Crypto] in
theorem SchemeId.lengths_lt (scheme : SchemeId) :
    scheme.pubkeyLen < 2 ^ 64 ∧ scheme.sigLen < 2 ^ 64 := by
  cases scheme <;> decide

/-- A key leaf is read exactly from the written key and signature, of the right sizes. -/
theorem walk_key {scheme : SchemeId} {hash : Hash256} {state final : WalkState} :
    walk (.key scheme hash) state = .ok final ↔
      ∃ pubkey signature rest, checkSizes scheme pubkey signature = .ok () ∧
        state.left = writeVarBytes pubkey ++ (writeVarBytes signature ++ rest) ∧
        final = ⟨state.leaf + 1, state.path.join
          { keys := [⟨state.leaf, scheme, hash, pubkey, signature⟩] }, rest⟩ := by
  simp only [walk, bind_eq_ok, readPolicyField_eq_ok, mapError_eq_ok, pure_eq_ok, Prod.exists]
  constructor
  · rintro ⟨pubkey, between, first, signature, rest, second, _, sizes, rfl⟩
    refine ⟨pubkey, signature, rest, sizes, ?_, by simp [Path.join]⟩
    rw [readVarBytes_eq_ok first, readVarBytes_eq_ok second]
  · rintro ⟨pubkey, signature, rest, sizes, written, rfl⟩
    obtain ⟨keyLength, signatureLength⟩ := checkSizes_eq_ok.mp sizes
    obtain ⟨keyFits, signatureFits⟩ := SchemeId.lengths_lt scheme
    refine ⟨pubkey, writeVarBytes signature ++ rest, ?_, signature, rest, ?_, (), sizes,
      by simp [Path.join]⟩
    · rw [written]
      exact readVarBytes_writeVarBytes (by omega) _
    · exact readVarBytes_writeVarBytes (by omega) _

mutual

/-- The walk succeeds exactly on the encoding of a satisfaction of the policy's shape, and collects
what that does. -/
theorem walk_eq_ok (policy : Policy) {state final : WalkState} : walk policy state = .ok final ↔
      ∃ satisfaction path rest, collect policy satisfaction state.leaf = some path ∧
        state.left = satisfaction.encode ++ rest ∧
        final = ⟨state.leaf + policy.leafCount, state.path.join path, rest⟩ := by
  match policy with
  | .key scheme hash =>
    rw [walk_key]
    constructor
    · rintro ⟨pubkey, signature, rest, sizes, written, rfl⟩
      refine ⟨.key pubkey signature, _, rest, if_pos sizes, ?_, rfl⟩
      rw [written, Satisfaction.encode, append_assoc]
    · rintro ⟨satisfaction, path, rest, collected, written, rfl⟩
      cases satisfaction <;> simp only [collect, reduceCtorEq] at collected
      rename_i pubkey signature
      split at collected
      · rename_i sizes
        cases collected
        refine ⟨pubkey, signature, rest, sizes, ?_, rfl⟩
        rw [written, Satisfaction.encode, append_assoc]
      · cases collected
  | .preimage hash =>
    simp only [walk, bind_eq_ok, readPolicyField_eq_ok, readArray32_eq_ok, require_eq_ok,
      pure_eq_ok, Prod.exists]
    constructor
    · rintro ⟨secret, rest, written, _, opens, rfl⟩
      exact ⟨.preimage secret, {}, rest, if_pos opens, written, by rw [Path.join_empty]; rfl⟩
    · rintro ⟨satisfaction, path, rest, collected, written, rfl⟩
      cases satisfaction <;> simp only [collect, reduceCtorEq] at collected
      rename_i secret
      split at collected
      · rename_i opens
        cases collected
        exact ⟨secret, rest, written, (), opens, by rw [Path.join_empty]; rfl⟩
      · cases collected
  | .older blocks =>
    simp only [walk, pure_eq_ok]
    constructor
    · rintro rfl
      exact ⟨.older, _, state.left, rfl, rfl, by simp [Path.join, Policy.leafCount]⟩
    · rintro ⟨satisfaction, path, rest, collected, written, rfl⟩
      cases satisfaction <;> simp only [collect, reduceCtorEq] at collected
      cases collected
      simp [Path.join, Policy.leafCount, written, Satisfaction.encode]
  | .after least =>
    simp only [walk, pure_eq_ok]
    constructor
    · rintro rfl
      exact ⟨.after, _, state.left, rfl, rfl, by simp [Path.join, Policy.leafCount]⟩
    · rintro ⟨satisfaction, path, rest, collected, written, rfl⟩
      cases satisfaction <;> simp only [collect, reduceCtorEq] at collected
      cases collected
      simp [Path.join, Policy.leafCount, written, Satisfaction.encode]
  | .all children =>
    rw [walk, walkAll_eq_ok children]
    constructor
    · rintro ⟨parts, path, rest, collected, written, rfl⟩
      exact ⟨.all parts, path, rest, collected, written, rfl⟩
    · rintro ⟨satisfaction, path, rest, collected, written, rfl⟩
      cases satisfaction <;> simp only [collect, reduceCtorEq] at collected
      exact ⟨_, path, rest, collected, written, rfl⟩
  | .any children =>
    simp only [walk, bind_eq_ok, readPolicyField_eq_ok, readU8_eq_ok, require_eq_ok, Prod.exists]
    constructor
    · rintro ⟨index, left, chosen, _, inside, walked⟩
      obtain ⟨branch, path, rest, collected, written, rfl⟩ :=
        (walkAny_eq_ok children inside).mp walked
      refine ⟨.any index branch, _, rest, congrArg (Option.map _) collected, ?_, ?_⟩
      · rw [chosen, Satisfaction.encode, cons_append]
        exact congrArg _ written
      · rw [← Path.join_assoc]
        simp [Path.join, Policy.leafCount]
    · rintro ⟨satisfaction, path, rest, collected, written, rfl⟩
      cases satisfaction <;> simp only [collect, reduceCtorEq] at collected
      rename_i index branch
      obtain ⟨inner, chosen, rfl⟩ := Option.map_eq_some_iff.mp collected
      have inside := collectChild_inside chosen
      refine ⟨index, branch.encode ++ rest, written, (), inside, ?_⟩
      refine (walkAny_eq_ok children inside).mpr ⟨branch, inner, rest, chosen, rfl, ?_⟩
      rw [← Path.join_assoc]
      simp [Path.join, Policy.leafCount]

theorem walkAll_eq_ok (children : List Policy) {state final : WalkState} :
    walkAll children state = .ok final ↔
      ∃ parts path rest, collectAll children parts state.leaf = some path ∧
        state.left = Satisfaction.encodeAll parts ++ rest ∧
        final = ⟨state.leaf + Policy.leafCountAll children, state.path.join path, rest⟩ := by
  match children with
  | [] =>
    simp only [walkAll, pure_eq_ok]
    constructor
    · rintro rfl
      exact ⟨[], {}, state.left, rfl, rfl, by simp [Policy.leafCountAll]⟩
    · rintro ⟨parts, path, rest, collected, written, rfl⟩
      cases parts with
      | nil =>
        cases collected
        obtain ⟨leaf, seen, left⟩ := state
        subst written
        simp [Policy.leafCountAll]
      | cons part parts => cases collected
  | child :: others =>
    simp only [walkAll, bind_eq_ok, walk_eq_ok child, walkAll_eq_ok others]
    constructor
    · rintro ⟨middle, ⟨part, first, between, here, written, rfl⟩, parts, later, rest, there,
        following, rfl⟩
      refine ⟨part :: parts, first.join later, rest, ?_, ?_, ?_⟩
      · exact collectAll_cons.mpr ⟨first, here, later, there, rfl⟩
      · rw [written, Satisfaction.encodeAll, append_assoc]
        exact congrArg _ following
      · rw [Path.join_assoc, Policy.leafCountAll, add_assoc]
    · rintro ⟨parts, path, rest, collected, written, rfl⟩
      cases parts with
      | nil => cases collected
      | cons part parts =>
        obtain ⟨first, here, later, there, rfl⟩ := collectAll_cons.mp collected
        rw [Satisfaction.encodeAll, append_assoc] at written
        refine ⟨_, ⟨part, first, Satisfaction.encodeAll parts ++ rest, here, written, rfl⟩,
          parts, later, rest, there, rfl, ?_⟩
        rw [Path.join_assoc, Policy.leafCountAll, add_assoc]

theorem walkAny_eq_ok (children : List Policy) {index : Nat} (inside : index < children.length)
    {state final : WalkState} :
    walkAny children index state = .ok final ↔
      ∃ branch path rest, collectChild children index branch state.leaf = some path ∧
        state.left = branch.encode ++ rest ∧
        final = ⟨state.leaf + Policy.leafCountAll children, state.path.join path, rest⟩ := by
  match children, index with
  | [], _ => exact absurd inside (Nat.not_lt_zero _)
  | child :: others, 0 =>
    simp only [walkAny, bind_eq_ok, walk_eq_ok child, pure_eq_ok, collectChild]
    constructor
    · rintro ⟨_, ⟨branch, path, rest, collected, written, rfl⟩, rfl⟩
      exact ⟨branch, path, rest, collected, written, by simp [Policy.leafCountAll, add_assoc]⟩
    · rintro ⟨branch, path, rest, collected, written, rfl⟩
      exact ⟨_, ⟨branch, path, rest, collected, written, rfl⟩,
        by simp [Policy.leafCountAll, add_assoc]⟩
  | child :: others, index + 1 =>
    rw [walkAny, walkAny_eq_ok others (Nat.lt_of_succ_lt_succ inside)]
    simp only [collectChild, Policy.leafCountAll, add_assoc]

end

/-! ## What is collected decides -/

mutual

theorem collect_choices (policy : Policy) {satisfaction : Satisfaction} {leaf : Nat} {path : Path}
    (collected : collect policy satisfaction leaf = some path) :
    path.choices = satisfaction.choices := by
  match policy, satisfaction with
  | .key _ _, .key _ _ =>
    simp only [collect] at collected
    split at collected <;> cases collected
    rfl
  | .preimage _, .preimage _ =>
    simp only [collect] at collected
    split at collected <;> cases collected
    rfl
  | .older _, .older | .after _, .after => cases collected; rfl
  | .all children, .all parts => exact collectAll_choices children collected
  | .any children, .any index branch =>
    obtain ⟨inner, chosen, rfl⟩ := Option.map_eq_some_iff.mp collected
    rw [Path.join, collectChild_choices children chosen]
    rfl

theorem collectAll_choices (children : List Policy) {parts : List Satisfaction} {leaf : Nat}
    {path : Path} (collected : collectAll children parts leaf = some path) :
    path.choices = Satisfaction.choicesAll parts := by
  match children, parts with
  | [], [] => cases collected; rfl
  | child :: others, part :: parts =>
    obtain ⟨first, here, later, there, rfl⟩ := collectAll_cons.mp collected
    rw [Path.join, Satisfaction.choicesAll, collect_choices child here,
      collectAll_choices others there]

theorem collectChild_choices (children : List Policy) {index leaf : Nat} {branch : Satisfaction}
    {path : Path} (chosen : collectChild children index branch leaf = some path) :
    path.choices = branch.choices := by
  match children, index with
  | child :: _, 0 => exact collect_choices child chosen
  | _ :: others, _ + 1 => exact collectChild_choices others chosen

end

/-- The keys met are rightly signed, and the time locks met have passed. -/
def Path.Opens (signs : KeyUse → Prop) (born height : Nat) (path : Path) : Prop :=
  (∀ use ∈ path.keys, signs use) ∧ path.availableAt born ≤ height

section Judging
variable {signs : KeyUse → Prop} {born height : Nat}

omit [Crypto] in
theorem Path.opens_join (first second : Path) : (first.join second).Opens signs born height ↔
      first.Opens signs born height ∧ second.Opens signs born height := by
  rw [Path.Opens, Path.availableAt_join, Path.Opens, Path.Opens, max_le_iff]
  simp only [Path.join, mem_append]
  constructor
  · rintro ⟨keys, before, after⟩
    exact ⟨⟨fun use member => keys use (.inl member), before⟩,
      fun use member => keys use (.inr member), after⟩
  · rintro ⟨⟨keys, before⟩, others, after⟩
    exact ⟨fun use member => member.elim (keys use) (others use), before, after⟩

omit [Crypto] in
theorem Path.opens_empty (choices : Bytes) :
    ({ choices := choices } : Path).Opens signs born height := by
  refine ⟨?_, by simp [Path.availableAt]⟩
  simp

mutual

/-- A satisfaction opens a policy exactly when what the walk would collect from it opens. -/
theorem satisfies_iff
    (sized : ∀ use, signs use → checkSizes use.scheme use.pubkey use.signature = .ok ())
    (policy : Policy) (admitted : policy.Admitted) {satisfaction : Satisfaction} {leaf : Nat} :
    Satisfies signs born height policy satisfaction leaf ↔
      ∃ path, collect policy satisfaction leaf = some path ∧ path.Opens signs born height := by
  match policy with
  | .key scheme hash =>
    cases satisfaction with
    | key pubkey signature =>
      simp only [Satisfies, collect]
      constructor
      · intro signed
        refine ⟨_, if_pos (sized _ signed), ?_, by simp [Path.availableAt]⟩
        simpa using signed
      · rintro ⟨path, collected, keys, _⟩
        split at collected
        · cases collected
          exact keys _ (.head _)
        · cases collected
    | _ => simp [Satisfies, collect]
  | .preimage hash =>
    cases satisfaction with
    | preimage secret =>
      simp only [Satisfies, collect]
      constructor
      · intro opens
        exact ⟨_, if_pos opens, Path.opens_empty []⟩
      · rintro ⟨path, collected, _⟩
        split at collected
        · assumption
        · cases collected
    | _ => simp [Satisfies, collect]
  | .older blocks =>
    cases satisfaction with
    | older =>
      have positive : 0 < blocks.toNat := by
        rw [Nat.pos_iff_ne_zero]
        exact fun zero => admitted (UInt16.toNat_inj.mp zero)
      simp only [Satisfies, collect, Option.some.injEq, exists_eq_left', Path.Opens,
        Path.availableAt, if_pos positive, saturatingAdd]
      simp
    | _ => simp [Satisfies, collect]
  | .after least =>
    cases satisfaction with
    | after =>
      simp only [Satisfies, collect, Option.some.injEq, exists_eq_left', Path.Opens,
        Path.availableAt]
      simp
    | _ => simp [Satisfies, collect]
  | .all children =>
    cases satisfaction with
    | all parts =>
      simp only [Satisfies, collect]
      exact satisfiesAll_iff sized children admitted.2
    | _ => simp [Satisfies, collect]
  | .any children =>
    cases satisfaction with
    | any index branch =>
      simp only [Satisfies, collect, Option.map_eq_some_iff,
        satisfiesChild_iff sized children admitted.2]
      constructor
      · rintro ⟨path, chosen, opens⟩
        exact ⟨_, ⟨path, chosen, rfl⟩, (Path.opens_join _ _).mpr ⟨Path.opens_empty _, opens⟩⟩
      · rintro ⟨_, ⟨path, chosen, rfl⟩, opens⟩
        exact ⟨path, chosen, ((Path.opens_join _ _).mp opens).2⟩
    | _ => simp [Satisfies, collect]

theorem satisfiesAll_iff
    (sized : ∀ use, signs use → checkSizes use.scheme use.pubkey use.signature = .ok ())
    (children : List Policy) (admitted : Policy.AdmittedAll children)
    {parts : List Satisfaction} {leaf : Nat} :
    SatisfiesAll signs born height children parts leaf ↔
      ∃ path, collectAll children parts leaf = some path ∧ path.Opens signs born height := by
  match children, parts with
  | [], [] => simp [SatisfiesAll, collectAll, Path.opens_empty]
  | [], _ :: _ | _ :: _, [] => simp [SatisfiesAll, collectAll]
  | child :: others, part :: parts =>
    simp only [SatisfiesAll, satisfies_iff sized child admitted.1,
      satisfiesAll_iff sized others admitted.2, collectAll_cons]
    constructor
    · rintro ⟨⟨first, here, opens⟩, later, there, opensLater⟩
      exact ⟨_, ⟨first, here, later, there, rfl⟩, (Path.opens_join _ _).mpr ⟨opens, opensLater⟩⟩
    · rintro ⟨_, ⟨first, here, later, there, rfl⟩, opens⟩
      obtain ⟨before, after⟩ := (Path.opens_join _ _).mp opens
      exact ⟨⟨first, here, before⟩, later, there, after⟩

theorem satisfiesChild_iff
    (sized : ∀ use, signs use → checkSizes use.scheme use.pubkey use.signature = .ok ())
    (children : List Policy) (admitted : Policy.AdmittedAll children)
    {index leaf : Nat} {branch : Satisfaction} :
    SatisfiesChild signs born height children index branch leaf ↔
      ∃ path, collectChild children index branch leaf = some path ∧
        path.Opens signs born height := by
  match children, index with
  | [], _ => simp [SatisfiesChild, collectChild]
  | child :: _, 0 => exact satisfies_iff sized child admitted.1
  | _ :: others, index + 1 => exact satisfiesChild_iff sized others admitted.2

end

end Judging

mutual

/-- The key leaves on the chosen path, with what is presented for each. -/
def keysOnPath : Policy → Satisfaction → Nat → List KeyUse
  | .key scheme hash, .key pubkey signature, leaf => [⟨leaf, scheme, hash, pubkey, signature⟩]
  | .all children, .all parts, leaf => keysOnPaths children parts leaf
  | .any children, .any index branch, leaf => keysOnBranch children index.toNat branch leaf
  | _, _, _ => []

def keysOnPaths : List Policy → List Satisfaction → Nat → List KeyUse
  | child :: rest, part :: parts, leaf =>
    keysOnPath child part leaf ++ keysOnPaths rest parts (leaf + child.leafCount)
  | _, _, _ => []

def keysOnBranch : List Policy → Nat → Satisfaction → Nat → List KeyUse
  | [], _, _, _ => []
  | child :: _, 0, branch, leaf => keysOnPath child branch leaf
  | child :: rest, index + 1, branch, leaf => keysOnBranch rest index branch (leaf + child.leafCount)

end

/-- The keys a walk met are those on the path, each a key leaf, and there is one if every way
through the tree is signed. -/
structure KeysMet (leaves : List (Nat × SchemeId × Hash256)) (onPath keys : List KeyUse)
    (signed : Bool) : Prop where
  onPath : keys = onPath
  listed : ∀ use ∈ keys, (use.leaf, use.scheme, use.hash) ∈ leaves
  some : signed = true → keys ≠ []

mutual

theorem collect_keys (policy : Policy) {satisfaction : Satisfaction} {leaf : Nat} {path : Path}
    (collected : collect policy satisfaction leaf = some path) :
    KeysMet (policy.keyLeavesFrom leaf) (keysOnPath policy satisfaction leaf) path.keys
      policy.alwaysSigned := by
  match policy, satisfaction with
  | .key scheme hash, .key _ _ =>
    simp only [collect] at collected
    split at collected <;> cases collected
    exact ⟨rfl, by simp [Policy.keyLeavesFrom], by simp⟩
  | .preimage _, .preimage _ =>
    simp only [collect] at collected
    split at collected <;> cases collected
    exact ⟨rfl, by simp, by simp [Policy.alwaysSigned]⟩
  | .older _, .older =>
    cases collected
    exact ⟨rfl, by simp, by simp [Policy.alwaysSigned]⟩
  | .after _, .after =>
    cases collected
    exact ⟨rfl, by simp, by simp [Policy.alwaysSigned]⟩
  | .all children, .all parts => exact collectAll_keys children collected
  | .any children, .any index branch =>
    obtain ⟨inner, chosen, rfl⟩ := Option.map_eq_some_iff.mp collected
    have met := collectChild_keys children chosen
    exact ⟨met.onPath, met.listed, met.some⟩

theorem collectAll_keys (children : List Policy) {parts : List Satisfaction} {leaf : Nat}
    {path : Path} (collected : collectAll children parts leaf = some path) :
    KeysMet (Policy.keyLeavesAll children leaf) (keysOnPaths children parts leaf) path.keys
      (Policy.anySigned children) := by
  match children, parts with
  | [], [] =>
    cases collected
    exact ⟨rfl, by simp, by simp [Policy.anySigned]⟩
  | child :: others, part :: parts =>
    obtain ⟨first, here, later, there, rfl⟩ := collectAll_cons.mp collected
    have met := collect_keys child here
    have rest := collectAll_keys others there
    refine ⟨?_, ?_, ?_⟩
    · rw [Path.join, keysOnPaths, ← met.onPath, ← rest.onPath]
    · intro use member
      rw [Policy.keyLeavesAll]
      rcases mem_append.mp member with early | late
      · exact mem_append_left _ (met.listed use early)
      · exact mem_append_right _ (rest.listed use late)
    · intro signed
      rw [Policy.anySigned, Bool.or_eq_true] at signed
      rcases signed with early | late
      · exact append_ne_nil_of_left_ne_nil (met.some early) _
      · exact append_ne_nil_of_right_ne_nil _ (rest.some late)

theorem collectChild_keys (children : List Policy) {index leaf : Nat} {branch : Satisfaction}
    {path : Path} (chosen : collectChild children index branch leaf = some path) :
    KeysMet (Policy.keyLeavesAll children leaf) (keysOnBranch children index branch leaf) path.keys
      (Policy.allSigned children) := by
  match children, index with
  | child :: _, 0 =>
    have met := collect_keys child chosen
    refine ⟨met.onPath, fun use member => ?_, fun signed => met.some ?_⟩
    · exact mem_append_left _ (met.listed use member)
    · rw [Policy.allSigned, Bool.and_eq_true] at signed
      exact signed.1
  | _ :: others, _ + 1 =>
    have met := collectChild_keys others chosen
    refine ⟨met.onPath, fun use member => ?_, fun signed => met.some ?_⟩
    · exact mem_append_right _ (met.listed use member)
    · rw [Policy.allSigned, Bool.and_eq_true] at signed
      exact signed.2

end

theorem verify_ok {scheme : SchemeId} {pubkey signature : Bytes} {message : Hash256}
    (verified : verify scheme pubkey message signature = .ok ()) :
    checkSizes scheme pubkey signature = .ok () ∧
      (scheme = .lamportOts ∨ scheme = .mlDsa65 ∨ scheme = .mlDsa87) := by
  unfold verify at verified
  cases sizes : checkSizes scheme pubkey signature with
  | error problem =>
    rw [sizes] at verified
    cases scheme <;> cases verified
  | ok done =>
    refine ⟨rfl, ?_⟩
    rw [sizes] at verified
    cases scheme with
    | mlDsa65 => exact .inr (.inl rfl)
    | mlDsa87 => exact .inr (.inr rfl)
    | lamportOts => exact .inl rfl
    | _ => cases verified

theorem readSpend_eq_ok {spent : TxOut} {witness : Witness} {policy : Policy} {path : Path} :
    readSpend spent witness = .ok (policy, path) ↔
      policy.Bounded ∧ policy.lockHash = spent.pubkeyHash ∧
        ∃ satisfaction, witness = policyWitness policy satisfaction ∧
          collect policy satisfaction 0 = some path := by
  simp only [readSpend, bind_eq_ok, require_eq_ok, pure_eq_ok, decodePolicy_eq_ok, walk_eq_ok]
  constructor
  · rintro ⟨_, _, _, locked, _, ⟨written, bounded⟩, _,
      ⟨satisfaction, _, _, collected, read, rfl⟩, _, rfl, result⟩
    obtain ⟨rfl, rfl⟩ := Prod.mk.inj result
    refine ⟨bounded, ?_, satisfaction, ?_, ?_⟩
    · rw [← locked, written]
      rfl
    · rw [append_nil] at read
      cases witness
      rw [policyWitness, ← written, ← read]
    · simpa [Path.join] using collected
  · rintro ⟨bounded, locked, satisfaction, rfl, collected⟩
    refine ⟨(), bounded.size, (), locked, policy, ⟨rfl, bounded⟩, _,
      ⟨satisfaction, path, [], collected, (append_nil _).symm, rfl⟩, (), rfl, ?_⟩
    simp [Path.join]

/-- The acceptance of a spend, taken apart. -/
theorem checkSpend_eq_ok {tx : Transaction} {inputIndex : Nat} {network : Network}
    {spent : UtxoEntry} {height : Nat} {witness : Witness} :
    checkSpend tx inputIndex network spent height witness = .ok () ↔
      ∃ policy satisfaction path, policy.Bounded ∧ policy.lockHash = spent.output.pubkeyHash ∧
        witness = policyWitness policy satisfaction ∧ collect policy satisfaction 0 = some path ∧
        path.Opens (SignsLeaf tx inputIndex network spent.output policy.encode satisfaction.choices)
          spent.height height := by
  simp only [checkSpend, precheckSpend, bind_eq_ok, mapError_eq_ok, require_eq_ok, pure_eq_ok,
    forM_eq_ok, Prod.exists, readSpend_eq_ok]
  constructor
  · rintro ⟨_, ⟨policy, path, ⟨bounded, locked, satisfaction, rfl, collected⟩, _, early, _, keys,
      rfl⟩, verified⟩
    refine ⟨policy, satisfaction, path, bounded, locked, rfl, collected, ?_, early⟩
    intro use member
    have passed := forM_eq_ok.mp keys use member
    simp only [bind_eq_ok, require_eq_ok] at passed
    obtain ⟨_, _, hashed⟩ := passed
    have message := verified use member
    rw [collect_choices policy collected] at message
    exact ⟨hashed, message⟩
  · rintro ⟨policy, satisfaction, path, bounded, locked, rfl, collected, signs, early⟩
    refine ⟨path, ⟨policy, path, ⟨bounded, locked, satisfaction, rfl, collected⟩, (), early, (), ?_,
      rfl⟩, ?_⟩
    · refine forM_eq_ok.mpr fun use member => ?_
      obtain ⟨hashed, verified⟩ := signs use member
      simp only [bind_eq_ok, require_eq_ok]
      refine ⟨(), ?_, hashed⟩
      -- a reusable scheme that verifies is one of the two ML-DSA sets, allowed on every network
      have listed := (collect_keys policy collected).listed use member
      have reusable : leafScheme use.scheme := bounded.admitted.leafScheme_of_mem listed
      rcases (verify_ok verified).2 with one | first | second
      · rw [one] at reusable
        rcases reusable with same | same | same <;> cases same
      · rw [first]
        rfl
      · rw [second]
        rfl
    · intro use member
      rw [collect_choices policy collected]
      exact (signs use member).2

/-- A policy output is spent exactly by the encodings of the satisfactions that open the policy, and
what opens it at a height opens it at every later one. -/
theorem policy_spent_exactly_by_satisfactions {policy : Policy} (bounded : policy.Bounded)
    {spent : UtxoEntry} (locked : spent.output.pubkeyHash = policy.lockHash) {witness : Witness}
    (apart : lockHashOf witness.pubkey = policy.lockHash → witness.pubkey = policy.encode)
    (tx : Transaction) (inputIndex : Nat) (network : Network) (height : Nat) :
    (checkSpend tx inputIndex network spent height witness = .ok () ↔
      ∃ satisfaction, witness = policyWitness policy satisfaction ∧
        Satisfies (SignsLeaf tx inputIndex network spent.output policy.encode satisfaction.choices)
          spent.height height policy satisfaction 0) ∧
    ∀ later, height ≤ later → checkSpend tx inputIndex network spent height witness = .ok () →
      checkSpend tx inputIndex network spent later witness = .ok () := by
  constructor
  · rw [checkSpend_eq_ok]
    constructor
    · rintro ⟨presented, satisfaction, path, admissible, opened, rfl, collected, opens⟩
      have same : presented = policy := by
        have written : presented.encode = policy.encode := apart (opened.trans locked)
        have decoded := decodePolicy_eq_ok.mpr ⟨written.symm, admissible⟩
        rw [decodePolicy_eq_ok.mpr ⟨rfl, bounded⟩] at decoded
        exact (Except.ok.inj decoded).symm
      subst same
      refine ⟨satisfaction, rfl, (satisfies_iff ?_ presented bounded.admitted).mpr
        ⟨path, collected, opens⟩⟩
      exact fun use signs => (verify_ok signs.2).1
    · rintro ⟨satisfaction, rfl, satisfied⟩
      obtain ⟨path, collected, opens⟩ := (satisfies_iff (fun use signs => (verify_ok signs.2).1)
        policy bounded.admitted).mp satisfied
      exact ⟨policy, satisfaction, path, bounded, locked.symm, rfl, collected, opens⟩
  · intro later higher accepted
    rw [checkSpend_eq_ok] at accepted ⊢
    obtain ⟨presented, satisfaction, path, admissible, opened, written, collected, signs, early⟩ :=
      accepted
    exact ⟨presented, satisfaction, path, admissible, opened, written, collected, signs,
      early.trans higher⟩

/-- Everything the signature of one key leaf is made over. -/
structure SignedMessage where
  tx : Transaction
  inputIndex : UInt32
  network : Network
  spent : TxOut
  policy : Bytes
  leaf : UInt8
  choices : Bytes

namespace SignedMessage

def hash (message : SignedMessage) : Hash256 :=
  message.tx.policySighash message.inputIndex message.network message.spent message.policy
    message.leaf message.choices

omit [Crypto] in
/-- What `policy_sighash` hashes. -/
def preimage (message : SignedMessage) : Bytes :=
  writeVarBytes message.network.hrp ++ message.tx.encodeWithoutWitness ++
    (writeU32 message.inputIndex ++ encodeOutput message.spent ++ writeVarBytes message.policy ++
      [message.leaf] ++ writeVarBytes message.choices)

/-- The lengths fit the wire format's counts. -/
structure Countable (message : SignedMessage) : Prop where
  tx : message.tx.Countable
  policy : message.policy.length < 2 ^ 64
  choices : message.choices.length < 2 ^ 64

/-- The two messages differ in nothing but the witnesses of their transactions. -/
structure Same (first second : SignedMessage) : Prop where
  version : first.tx.version = second.tx.version
  inputs : first.tx.inputs.map TxIn.stripped = second.tx.inputs.map TxIn.stripped
  outputs : first.tx.outputs = second.tx.outputs
  lockTime : first.tx.lockTime = second.tx.lockTime
  inputIndex : first.inputIndex = second.inputIndex
  network : first.network = second.network
  spent : first.spent = second.spent
  policy : first.policy = second.policy
  leaf : first.leaf = second.leaf
  choices : first.choices = second.choices

omit [Crypto] in
theorem hrp_injective : Function.Injective Network.hrp := by
  intro first second same
  cases first <;> cases second <;> first | rfl | cases same

omit [Crypto] in
/-- The part that every signature of a spend covers is read off the front of what is hashed. -/
theorem spend_append_inj {first second : Transaction} {index index' : UInt32}
    {network network' : Network} {spent spent' : TxOut} (firstFits : first.Countable)
    (secondFits : second.Countable) {before after : Bytes}
    (equal : writeVarBytes network.hrp ++ first.encodeWithoutWitness ++
        (writeU32 index ++ encodeOutput spent ++ before) =
      writeVarBytes network'.hrp ++ second.encodeWithoutWitness ++
        (writeU32 index' ++ encodeOutput spent' ++ after)) :
    network = network' ∧ first.version = second.version ∧
      first.inputs.map TxIn.stripped = second.inputs.map TxIn.stripped ∧
      first.outputs = second.outputs ∧ first.lockTime = second.lockTime ∧ index = index' ∧
      spent = spent' ∧ before = after := by
  simp only [writeVarBytes, append_assoc] at equal
  have short : ∀ network : Network, network.hrp.length < 2 ^ 64 := by
    intro network
    cases network <;> decide
  obtain ⟨lengths, equal⟩ := writeVarint_append_inj (short _) (short _) equal
  obtain ⟨networks, equal⟩ := append_inj equal lengths
  obtain ⟨version, inputs, outputs, lockTime, equal⟩ :=
    encodeWithoutWitness_append_inj firstFits secondFits equal
  obtain ⟨indices, equal⟩ := writeU32_selfDelimiting _ _ _ _ equal
  obtain ⟨spents, rests⟩ := encodeOutput_selfDelimiting _ _ _ _ equal
  exact ⟨hrp_injective networks, version, inputs, outputs, lockTime, indices, spents, rests⟩

omit [Crypto] in
theorem same_of_preimage {first second : SignedMessage} (firstFits : first.Countable)
    (secondFits : second.Countable) (equal : first.preimage = second.preimage) :
    first.Same second := by
  have split : ∀ message : SignedMessage, message.preimage =
      writeVarBytes message.network.hrp ++ message.tx.encodeWithoutWitness ++
        (writeU32 message.inputIndex ++ encodeOutput message.spent ++
          (writeVarint message.policy.length ++ (message.policy ++
            (message.leaf :: writeVarBytes message.choices)))) := by
    simp [preimage, writeVarBytes]
  rw [split, split] at equal
  obtain ⟨network, version, inputs, outputs, lockTime, index, spent, equal⟩ :=
    spend_append_inj firstFits.tx secondFits.tx equal
  obtain ⟨policyLengths, equal⟩ :=
    writeVarint_append_inj firstFits.policy secondFits.policy equal
  obtain ⟨policies, equal⟩ := append_inj equal policyLengths
  obtain ⟨leaf, equal⟩ := List.cons.inj equal
  have choices := writeVarBytes_injective firstFits.choices secondFits.choices equal
  exact ⟨version, inputs, outputs, lockTime, index, network, spent, policies, leaf, choices⟩

end SignedMessage

/-- Whoever spends a decodable policy has signed: a key leaf lies on the chosen path, and its
signature is valid for a message that no other spend shares. -/
theorem policy_spend_is_signed {content : Bytes} {policy : Policy}
    (decoded : decodePolicy content = .ok policy) {spent : UtxoEntry}
    (locked : spent.output.pubkeyHash = lockHashOf content) {tx : Transaction} {inputIndex : Nat}
    {network : Network} {height : Nat} {witness : Witness}
    (accepted : checkSpend tx inputIndex network spent height witness = .ok ()) :
    ∃ presented satisfaction use, witness = policyWitness presented satisfaction ∧
      lockHashOf presented.encode = lockHashOf content ∧
      (witness.pubkey = content → presented = policy) ∧
      use ∈ keysOnPath presented satisfaction 0 ∧
      (use.leaf, use.scheme, use.hash) ∈ presented.keyLeaves ∧
      pubkeyHash use.scheme use.pubkey = use.hash ∧
      let message : SignedMessage := ⟨tx, UInt32.ofNat inputIndex, network, spent.output,
        presented.encode, UInt8.ofNat use.leaf, satisfaction.choices⟩
      verify use.scheme use.pubkey message.hash use.signature = .ok () ∧
      ∀ other : SignedMessage, message.Countable → other.Countable →
        (taggedHash .policySighash message.preimage = taggedHash .policySighash other.preimage →
          message.preimage = other.preimage) →
        message.hash = other.hash → message.Same other := by
  obtain ⟨presented, satisfaction, path, bounded, opened, rfl, collected, signs, _⟩ :=
    checkSpend_eq_ok.mp accepted
  have met := collect_keys presented collected
  obtain ⟨use, member⟩ := exists_mem_of_ne_nil _ (met.some bounded.signed)
  obtain ⟨hashed, verified⟩ := signs use member
  refine ⟨presented, satisfaction, use, rfl, opened.trans locked, ?_, ?_, met.listed use member,
    hashed, verified, ?_⟩
  · intro same
    have again := decodePolicy_eq_ok.mpr ⟨same.symm, bounded⟩
    rw [decoded] at again
    exact (Except.ok.inj again).symm
  · rwa [← met.onPath]
  · intro other fits otherFits apart equal
    exact SignedMessage.same_of_preimage fits otherFits (apart equal)

/-- A key of the right length. -/
def sampleKey : Bytes := replicate SchemeId.mlDsa87.pubkeyLen 1

def samplePolicy : Policy := .key .mlDsa87 (pubkeyHash .mlDsa87 sampleKey)

/-- A transaction that spends one output, and the output. -/
def sampleSpent : UtxoEntry := ⟨samplePolicy.output 50_000, 1, false⟩

def sampleTx : Transaction where
  version := 1
  inputs := [⟨⟨Hash256.zero, 0⟩, {}, 0⟩]
  outputs := [⟨40_000, .mlDsa87, Hash256.zero⟩]
  lockTime := 0

/-- The key with a signature that ends with the message it signs. -/
def sampleSatisfaction : Satisfaction :=
  .key sampleKey (replicate (SchemeId.mlDsa87.sigLen - 32) 0 ++
    (sampleTx.policySighash 0 .regtest sampleSpent.output samplePolicy.encode 0 []).bytes)

end Satisfying

theorem samplePolicy_bounded : letI : Crypto := checksumCrypto; samplePolicy.Bounded := by
  refine ⟨.inr (.inl rfl), ?_, ?_, ?_, ?_⟩ <;> decide +kernel

/-- The sample satisfaction opens the sample policy. -/
theorem policy_spent_exactly_by_satisfactions_sample :
    letI : Crypto := checksumCrypto
    checkSpend sampleTx 0 .regtest sampleSpent 2 (policyWitness samplePolicy sampleSatisfaction) =
      .ok () := by
  let _ := checksumCrypto
  refine (policy_spent_exactly_by_satisfactions samplePolicy_bounded rfl (fun _ => rfl) sampleTx 0
    .regtest 2).1.mpr ⟨sampleSatisfaction, rfl, ?_⟩
  change SignsLeaf _ _ _ _ _ _ _
  unfold SignsLeaf
  decide +kernel

/-- Its key is on the path. -/
theorem policy_spend_is_signed_sample :
    letI : Crypto := checksumCrypto
    ∃ presented satisfaction use,
      policyWitness samplePolicy sampleSatisfaction = policyWitness presented satisfaction ∧
      use ∈ keysOnPath presented satisfaction 0 := by
  let _ := checksumCrypto
  have decoded : decodePolicy samplePolicy.encode = .ok samplePolicy :=
    decodePolicy_eq_ok.mpr ⟨rfl, samplePolicy_bounded⟩
  have accepted : checkSpend sampleTx 0 .regtest sampleSpent 2
      (policyWitness samplePolicy sampleSatisfaction) = .ok () := by decide +kernel
  obtain ⟨presented, satisfaction, use, written, _, _, member, _⟩ :=
    policy_spend_is_signed decoded rfl accepted
  exact ⟨presented, satisfaction, use, written, member⟩

/-- The transaction with nothing in its witnesses. -/
def Transaction.withoutWitnesses (tx : Transaction) : Transaction :=
  { tx with inputs := tx.inputs.map fun input => { input with witness := {} } }

theorem Transaction.withoutWitnesses_eq {first second : Transaction}
    (version : first.version = second.version)
    (inputs : first.inputs.map TxIn.stripped = second.inputs.map TxIn.stripped)
    (outputs : first.outputs = second.outputs) (lockTime : first.lockTime = second.lockTime) :
    first.withoutWitnesses = second.withoutWitnesses := by
  have viewed : ∀ tx : Transaction, tx.withoutWitnesses =
      ⟨tx.version, (tx.inputs.map TxIn.stripped).map fun input => ⟨input.1, {}, input.2⟩,
        tx.outputs, tx.lockTime⟩ := by
    intro tx
    rw [withoutWitnesses, map_map]
    rfl
  rw [viewed, viewed, version, inputs, outputs, lockTime]

/-- Everything the signature of a key output is made over. -/
structure KeyMessage where
  tx : Transaction
  inputIndex : UInt32
  network : Network
  spent : TxOut

namespace KeyMessage

/-- What `sighash` hashes. -/
def preimage (message : KeyMessage) : Bytes :=
  writeVarBytes message.network.hrp ++ message.tx.encodeWithoutWitness ++
    writeU32 message.inputIndex ++ encodeOutput message.spent

/-- The two messages differ in nothing but the witnesses of their transactions. -/
structure Same (first second : KeyMessage) : Prop where
  tx : first.tx.withoutWitnesses = second.tx.withoutWitnesses
  inputIndex : first.inputIndex = second.inputIndex
  network : first.network = second.network
  spent : first.spent = second.spent

theorem same_of_preimage {first second : KeyMessage} (firstFits : first.tx.Countable)
    (secondFits : second.tx.Countable) (equal : first.preimage = second.preimage) :
    first.Same second := by
  have split : ∀ message : KeyMessage, message.preimage =
      writeVarBytes message.network.hrp ++ message.tx.encodeWithoutWitness ++
        (writeU32 message.inputIndex ++ encodeOutput message.spent ++ []) := by
    intro message
    simp [preimage]
  rw [split, split] at equal
  obtain ⟨network, version, inputs, outputs, lockTime, index, spent, -⟩ :=
    SignedMessage.spend_append_inj firstFits secondFits equal
  exact ⟨Transaction.withoutWitnesses_eq version inputs outputs lockTime, index, network, spent⟩

end KeyMessage

/-- The tags of different domains are different texts. -/
theorem Tag.text_injective : Function.Injective Tag.text := by
  intro first second same
  cases first <;> cases second <;> first | rfl | exact absurd same (by decide)

section Digests
variable [Crypto]

def KeyMessage.hash (message : KeyMessage) : Hash256 :=
  message.tx.sighash message.inputIndex message.network message.spent

/-- No two of these inputs, each the text of a domain and a message, have one tagged hash. -/
def CollisionFree (hashed : Set (String × Bytes)) : Prop :=
  Set.InjOn (fun input => taggedHashText input.1 input.2) hashed

theorem CollisionFree.preimages {hashed : Set (String × Bytes)} (apart : CollisionFree hashed)
    {tag tag' : Tag} {first second : Bytes} (firstIn : (tag.text, first) ∈ hashed)
    (secondIn : (tag'.text, second) ∈ hashed)
    (equal : taggedHash tag first = taggedHash tag' second) : tag = tag' ∧ first = second := by
  have inputs := Prod.mk.inj (apart firstIn secondIn equal)
  exact ⟨Tag.text_injective inputs.1, inputs.2⟩

/-- Identifiers and signed digests bind what they are taken of, where tagged hashes do not collide.
-/
theorem digests_bind {hashed : Set (String × Bytes)} (apart : CollisionFree hashed) :
    (∀ first second : Transaction, first.Countable → second.Countable →
      first.isCoinbase = false → second.isCoinbase = false →
      (Tag.tx.text, first.txidPreimage) ∈ hashed → (Tag.tx.text, second.txidPreimage) ∈ hashed →
      first.txid = second.txid → first.withoutWitnesses = second.withoutWitnesses) ∧
    (∀ first second : KeyMessage, first.tx.Countable → second.tx.Countable →
      (Tag.sighash.text, first.preimage) ∈ hashed →
      (Tag.sighash.text, second.preimage) ∈ hashed →
      first.hash = second.hash → first.Same second) ∧
    (∀ first second : SignedMessage, first.Countable → second.Countable →
      (Tag.policySighash.text, first.preimage) ∈ hashed →
      (Tag.policySighash.text, second.preimage) ∈ hashed →
      first.hash = second.hash → first.Same second) ∧
    (∀ (key : KeyMessage) (policy : SignedMessage), (Tag.sighash.text, key.preimage) ∈ hashed →
      (Tag.policySighash.text, policy.preimage) ∈ hashed → key.hash ≠ policy.hash) ∧
    ∀ (key : KeyMessage) (tx : Transaction),
      (Tag.sighash.text, key.preimage) ∈ hashed → (Tag.tx.text, tx.txidPreimage) ∈ hashed →
      key.hash ≠ tx.txid := by
  refine ⟨?_, ?_, ?_, ?_, ?_⟩
  · intro first second firstFits secondFits plain plain' firstIn secondIn equal
    have preimages := (apart.preimages firstIn secondIn equal).2
    simp only [Transaction.txidPreimage, plain, plain', Bool.false_eq_true, if_false] at preimages
    obtain ⟨version, inputs, outputs, lockTime, -⟩ :=
      encodeWithoutWitness_append_inj firstFits secondFits preimages
    exact Transaction.withoutWitnesses_eq version inputs outputs lockTime
  · intro first second firstFits secondFits firstIn secondIn equal
    exact KeyMessage.same_of_preimage firstFits secondFits
      (apart.preimages firstIn secondIn equal).2
  · intro first second firstFits secondFits firstIn secondIn equal
    exact SignedMessage.same_of_preimage firstFits secondFits
      (apart.preimages firstIn secondIn equal).2
  · intro key policy keyIn policyIn equal
    cases (apart.preimages keyIn policyIn equal).1
  · intro key tx keyIn txIn equal
    cases (apart.preimages keyIn txIn equal).1

/-- A spend signed by a key and the same one signed under a policy. -/
def sampleKeyMessage : KeyMessage := ⟨sampleTx, 0, .regtest, sampleSpent.output⟩

def samplePolicyMessage : SignedMessage :=
  ⟨sampleTx, 0, .regtest, sampleSpent.output, samplePolicy.encode, 0, []⟩

/-- What their digests and the identifier of the spend are taken of. -/
def sampleInputs : List (String × Bytes) :=
  [(Tag.tx.text, sampleTx.txidPreimage), (Tag.sighash.text, sampleKeyMessage.preimage),
    (Tag.policySighash.text, samplePolicyMessage.preimage)]

end Digests

/-- The three digests of one spend are different. -/
theorem digests_bind_sample :
    letI : Crypto := checksumCrypto
    sampleKeyMessage.hash ≠ samplePolicyMessage.hash ∧ sampleKeyMessage.hash ≠ sampleTx.txid := by
  let _ := checksumCrypto
  have apart : CollisionFree {input | input ∈ sampleInputs} := by
    have checked : ∀ first ∈ sampleInputs, ∀ second ∈ sampleInputs,
        taggedHashText first.1 first.2 = taggedHashText second.1 second.2 → first = second := by
      decide +kernel
    exact fun first firstIn second secondIn => checked first firstIn second secondIn
  have bound := (digests_bind apart).2.2.2
  have keyIn : (Tag.sighash.text, sampleKeyMessage.preimage) ∈ sampleInputs :=
    mem_cons_of_mem _ (.head _)
  have policyIn : (Tag.policySighash.text, samplePolicyMessage.preimage) ∈ sampleInputs :=
    mem_cons_of_mem _ (mem_cons_of_mem _ (.head _))
  exact ⟨bound.1 _ _ keyIn policyIn, bound.2 _ _ keyIn (.head _)⟩

section Claimed

mutual

/-- `walk` with `check_preimages` off. -/
def walkUnchecked : Policy → WalkState → Except PolicyError WalkState
  | .key scheme pubkeyHash, state => do
      let (pubkey, left) ← readPolicyField readVarBytes state.left
      let (signature, left) ← readPolicyField readVarBytes left
      (checkSizes scheme pubkey signature).mapError .witnessSize
      let use : KeyUse := ⟨state.leaf, scheme, pubkeyHash, pubkey, signature⟩
      pure ⟨state.leaf + 1, { state.path with keys := state.path.keys ++ [use] }, left⟩
  | .preimage _, state => do
      let (_, left) ← readPolicyField readArray32 state.left
      pure ⟨state.leaf + 1, state.path, left⟩
  | .older blocks, state =>
    pure ⟨state.leaf + 1,
      { state.path with minAge := max state.path.minAge blocks.toNat }, state.left⟩
  | .after height, state =>
    pure ⟨state.leaf + 1,
      { state.path with minHeight := max state.path.minHeight height.toNat }, state.left⟩
  | .all children, state => walkAllUnchecked children state
  | .any children, state => do
      let (index, left) ← readPolicyField readU8 state.left
      require (index.toNat < children.length) (.badBranch index children.length)
      walkAnyUnchecked children index.toNat
        ⟨state.leaf, { state.path with choices := state.path.choices ++ [index] }, left⟩

def walkAllUnchecked : List Policy → WalkState → Except PolicyError WalkState
  | [], state => pure state
  | child :: rest, state => do
      let state ← walkUnchecked child state
      walkAllUnchecked rest state

def walkAnyUnchecked : List Policy → Nat → WalkState → Except PolicyError WalkState
  | [], _, state => pure state
  | child :: rest, 0, state => do
      let state ← walkUnchecked child state
      pure { state with leaf := state.leaf + Policy.leafCountAll rest }
  | child :: rest, index + 1, state =>
    walkAnyUnchecked rest index { state with leaf := state.leaf + child.leafCount }

end

def verificationsClaimed (witness : Witness) : Nat :=
  if maxPolicySize < witness.pubkey.length then 1
  else
    match decodePolicy witness.pubkey with
    | .error _ => 1
    | .ok policy =>
      match walkUnchecked policy ⟨0, {}, witness.signature⟩ with
      | .error _ => 1
      | .ok final => max final.path.keys.length 1

end Claimed

section Counted
variable [Crypto]

mutual

theorem walkUnchecked_of_walk (policy : Policy) {state final : WalkState}
    (walked : walk policy state = .ok final) : walkUnchecked policy state = .ok final := by
  match policy with
  | .key _ _ => exact walked
  | .preimage _ =>
    simp only [walk, bind_eq_ok, require_eq_ok] at walked
    obtain ⟨secret, read, _, _, made⟩ := walked
    simp only [walkUnchecked, bind_eq_ok]
    exact ⟨secret, read, made⟩
  | .older _ | .after _ => exact walked
  | .all children => exact walkAllUnchecked_of_walk children walked
  | .any children =>
    simp only [walk, bind_eq_ok, require_eq_ok] at walked
    obtain ⟨index, read, _, inside, taken⟩ := walked
    simp only [walkUnchecked, bind_eq_ok, require_eq_ok]
    exact ⟨index, read, (), inside, walkAnyUnchecked_of_walk children taken⟩

theorem walkAllUnchecked_of_walk (children : List Policy) {state final : WalkState}
    (walked : walkAll children state = .ok final) :
    walkAllUnchecked children state = .ok final := by
  match children with
  | [] => exact walked
  | child :: rest =>
    simp only [walkAll, bind_eq_ok] at walked
    obtain ⟨middle, here, later⟩ := walked
    simp only [walkAllUnchecked, bind_eq_ok]
    exact ⟨middle, walkUnchecked_of_walk child here, walkAllUnchecked_of_walk rest later⟩

theorem walkAnyUnchecked_of_walk (children : List Policy) {index : Nat} {state final : WalkState}
    (walked : walkAny children index state = .ok final) :
    walkAnyUnchecked children index state = .ok final := by
  match children, index with
  | [], _ => exact walked
  | child :: rest, 0 =>
    simp only [walkAny, bind_eq_ok] at walked
    obtain ⟨middle, here, later⟩ := walked
    simp only [walkAnyUnchecked, bind_eq_ok]
    exact ⟨middle, walkUnchecked_of_walk child here, later⟩
  | _ :: rest, index + 1 => exact walkAnyUnchecked_of_walk rest walked

end

/-- A loop over the keys that stops at the first refusal, with the number of verifications made. -/
def verifyCounted (check : KeyUse → Except ValidationError Unit) :
    List KeyUse → Except ValidationError Unit × Nat
  | [] => (.ok (), 0)
  | use :: rest =>
    match check use with
    | .error problem => (.error problem, 1)
    | .ok _ => ((verifyCounted check rest).1, (verifyCounted check rest).2 + 1)

/-- `check_spend`, with the number of signature verifications it performs. -/
def checkSpendCounted (tx : Transaction) (inputIndex : Nat) (network : Network)
    (spent : UtxoEntry) (height : Nat) (witness : Witness) : Except ValidationError Unit × Nat :=
  match precheckSpend network spent height witness with
  | .error problem => (.error problem, 0)
  | .ok path => verifyCounted (fun use =>
      (verify use.scheme use.pubkey
        (tx.policySighash (UInt32.ofNat inputIndex) network spent.output witness.pubkey
          (UInt8.ofNat use.leaf) path.choices)
        use.signature).mapError .signature) path.keys

omit [Crypto] in
theorem verifyCounted_spec (check : KeyUse → Except ValidationError Unit) (keys : List KeyUse) :
    (verifyCounted check keys).1 = keys.forM check ∧
      (verifyCounted check keys).2 ≤ keys.length := by
  induction keys with
  | nil => exact ⟨rfl, le_rfl⟩
  | cons use rest ih =>
    have unfolded : (use :: rest).forM check = (check use >>= fun _ => rest.forM check) := rfl
    rw [verifyCounted, unfolded]
    split
    next problem refused =>
      rw [refused]
      exact ⟨rfl, Nat.succ_pos _⟩
    next done =>
      rw [done]
      exact ⟨ih.1, Nat.succ_le_succ ih.2⟩

/-- The count is that of the check itself, and what is claimed beforehand is never less. -/
theorem verifications_never_undercounted (tx : Transaction) (inputIndex : Nat) (network : Network)
    (spent : UtxoEntry) (height : Nat) (witness : Witness) :
    (checkSpendCounted tx inputIndex network spent height witness).1 =
        checkSpend tx inputIndex network spent height witness ∧
      (checkSpendCounted tx inputIndex network spent height witness).2 ≤
        verificationsClaimed witness := by
  rw [checkSpendCounted, checkSpend]
  cases prechecked : precheckSpend network spent height witness with
  | error problem => exact ⟨rfl, Nat.zero_le _⟩
  | ok path =>
    have counted := verifyCounted_spec (fun use => (verify use.scheme use.pubkey
      (tx.policySighash (UInt32.ofNat inputIndex) network spent.output witness.pubkey
        (UInt8.ofNat use.leaf) path.choices) use.signature).mapError .signature) path.keys
    refine ⟨counted.1, counted.2.trans ?_⟩
    simp only [precheckSpend, readSpend, bind_eq_ok, mapError_eq_ok, require_eq_ok, pure_eq_ok]
      at prechecked
    obtain ⟨_, ⟨_, small, _, _, policy, decoded, final, walked, _, _, rfl⟩, _, _, _, _, rfl⟩ :=
      prechecked
    rw [verificationsClaimed, if_neg (Nat.not_lt.mpr small), decoded]
    dsimp only
    rw [walkUnchecked_of_walk policy walked]
    exact Nat.le_max_left _ _

end Counted

end Q21Formal.Ledger
