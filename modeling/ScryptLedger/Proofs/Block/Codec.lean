import ScryptLedger.Coinbase
import ScryptLedger.Primitives.Transparent
import ScryptLedger.Proofs.Block.Check
import ScryptLedger.Proofs.Transaction.Codec

/-!
# Blocks on the wire and back

Headers, merge-mining proofs and blocks are read from exactly the encodings of
those that fit: no vector is too long, and a proof is there when the version
announces one. So every object has one form on the wire, and comes back from it
unchanged; only a missing proof comes back as the empty one. A block that
passes on its own always fits, as long as blocks may be no longer than vectors.
-/

namespace ScryptLedger

namespace BlockHeader

theorem decoder_reads : decoder.Reads encode fun _ => True := by
  intro bytes header rest
  simp only [decoder, encode, Decoder.int32_reads.bind_eq_ok_iff,
    Decoder.hash_reads.bind_eq_ok_iff, Decoder.uint32_reads.bind_eq_ok_iff,
    Decoder.apply_pure_eq_ok_iff, List.append_assoc]
  constructor
  · rintro ⟨version, _, -, rfl, previous, _, -, rfl, root, _, -, rfl, time, _, -, rfl, bits, _, -,
      rfl, nonce, _, -, rfl, rfl, rfl⟩
    exact ⟨trivial, rfl⟩
  · rintro ⟨-, rfl⟩
    exact ⟨header.version, _, trivial, rfl, header.previous, _, trivial, rfl, header.merkleRoot, _,
      trivial, rfl, header.time, _, trivial, rfl, header.bits, _, trivial, rfl, header.nonce, rest,
      trivial, rfl, rfl, rfl⟩

/-- Which byte strings are headers. -/
theorem decode_eq_ok_iff {bytes : Bytes} {header : BlockHeader} :
    decode bytes = .ok header ↔ bytes = header.encode :=
  decoder_reads.whole_eq_ok_iff.trans (iff_of_eq (true_and _))

end BlockHeader

namespace AuxPow

/-- Whether no vector of a proof is longer than any vector may be. -/
structure Fits (auxpow : AuxPow) : Prop where
  coinbase : auxpow.coinbase.Fits
  coinbaseBranch : auxpow.coinbaseBranch.length ≤ maxVectorSize
  chainBranch : auxpow.chainBranch.length ≤ maxVectorSize

theorem fits_empty : empty.Fits where
  coinbase := ⟨by decide, fun _ held => (nomatch held), by decide, fun _ held => (nomatch held)⟩
  coinbaseBranch := by decide
  chainBranch := by decide

theorem decoder_reads : decoder.Reads encode Fits := by
  intro bytes auxpow rest
  simp only [decoder, encode, Transaction.decoder_reads.bind_eq_ok_iff,
    Decoder.hash_reads.bind_eq_ok_iff, Decoder.hash_reads.vector.bind_eq_ok_iff,
    Decoder.int32_reads.bind_eq_ok_iff, BlockHeader.decoder_reads.bind_eq_ok_iff,
    Decoder.apply_pure_eq_ok_iff, List.append_assoc]
  constructor
  · rintro ⟨coinbase, _, fit, rfl, parentHash, _, -, rfl, coinbaseBranch, _, ⟨few, -⟩, rfl, index,
      _, -, rfl, chainBranch, _, ⟨few', -⟩, rfl, chainIndex, _, -, rfl, parent, _, -, rfl, rfl, rfl⟩
    exact ⟨⟨fit, few, few'⟩, rfl⟩
  · rintro ⟨⟨fit, few, few'⟩, rfl⟩
    exact ⟨auxpow.coinbase, _, fit, rfl, auxpow.parentHash, _, trivial, rfl, auxpow.coinbaseBranch,
      _, ⟨few, fun _ _ => trivial⟩, rfl, auxpow.index, _, trivial, rfl, auxpow.chainBranch, _,
      ⟨few', fun _ _ => trivial⟩, rfl, auxpow.chainIndex, _, trivial, rfl, auxpow.parent, rest,
      trivial, rfl, rfl, rfl⟩

/-- Which byte strings are merge-mining proofs. -/
theorem decode_eq_ok_iff {bytes : Bytes} {auxpow : AuxPow} :
    decode bytes = .ok auxpow ↔ auxpow.Fits ∧ bytes = auxpow.encode :=
  decoder_reads.whole_eq_ok_iff

theorem fits_of_length_le {auxpow : AuxPow} (short : auxpow.encode.length ≤ maxVectorSize) :
    auxpow.Fits := by
  have hashes (branch : List Hash) := Wire.length_le_vector Digest.bytes
    (fun hash : Hash => by rw [hash.length_bytes]; decide) branch
  have first := hashes auxpow.coinbaseBranch
  have second := hashes auxpow.chainBranch
  simp only [encode, List.length_append] at short
  exact ⟨Transaction.fits_of_size_le (by rw [Transaction.size]; omega), by omega, by omega⟩

end AuxPow

namespace ProvenHeader

/-- Whether the proof that a header comes with, if any, has no vector that is too long. -/
def Bounded (proven : ProvenHeader) : Prop :=
  ∀ auxpow, proven.auxpow = some auxpow → auxpow.Fits

/-- Whether a header comes with a proof exactly when its version announces one. -/
def Announced (proven : ProvenHeader) : Prop :=
  proven.auxpow.isSome = Version.hasAuxpow proven.header.version

theorem decoder_reads :
    decoder.Reads encode fun proven => proven.Announced ∧ proven.Bounded := by
  intro bytes proven rest
  obtain ⟨header, auxpow⟩ := proven
  simp only [decoder, encode, Announced, Bounded, BlockHeader.decoder_reads.bind_eq_ok_iff,
    List.append_assoc]
  constructor
  · rintro ⟨found, between, -, rfl, done⟩
    cases announced : Version.hasAuxpow found.version with
    | true =>
      simp only [announced, if_true, AuxPow.decoder_reads.bind_eq_ok_iff,
        Decoder.apply_pure_eq_ok_iff, ProvenHeader.mk.injEq] at done
      obtain ⟨proof, _, fit, rfl, ⟨rfl, rfl⟩, rfl⟩ := done
      exact ⟨⟨announced.symm, fun _ same => Option.some.inj same ▸ fit⟩, by simp [announced]⟩
    | false =>
      simp only [announced, Bool.false_eq_true, if_false, Decoder.apply_pure_eq_ok_iff,
        ProvenHeader.mk.injEq] at done
      obtain ⟨⟨rfl, rfl⟩, rfl⟩ := done
      exact ⟨⟨announced.symm, fun _ same => by cases same⟩, by simp [announced]⟩
  · rintro ⟨⟨announced, fit⟩, rfl⟩
    refine ⟨header, _, trivial, rfl, ?_⟩
    cases auxpow with
    | some proof =>
      rw [← announced]
      simp only [Option.isSome_some, if_true, AuxPow.decoder_reads.bind_eq_ok_iff,
        Decoder.apply_pure_eq_ok_iff]
      exact ⟨proof, rest, fit proof rfl, rfl, rfl, rfl⟩
    | none =>
      rw [← announced]
      simp only [Option.isSome_none, Bool.false_eq_true, if_false, Decoder.apply_pure_eq_ok_iff]
      exact ⟨trivial, rfl⟩

/-- Which byte strings are headers with their proofs. -/
theorem decode_eq_ok_iff {bytes : Bytes} {proven : ProvenHeader} :
    decode bytes = .ok proven ↔ (proven.Announced ∧ proven.Bounded) ∧ bytes = proven.encode :=
  decoder_reads.whole_eq_ok_iff

/-- What comes back as it is. -/
theorem decode_encode_iff {proven : ProvenHeader} (bounded : proven.Bounded) :
    decode proven.encode = .ok proven ↔ proven.Announced := by
  rw [decode_eq_ok_iff]
  exact ⟨fun read => read.1.1, fun announced => ⟨⟨announced, bounded⟩, rfl⟩⟩

theorem bounded_empty (header : BlockHeader) : Bounded ⟨header, some AuxPow.empty⟩ :=
  fun _ same => Option.some.inj same ▸ AuxPow.fits_empty

/-- A missing proof stands on the wire as the empty one. -/
theorem encode_of_missing (header : BlockHeader) :
    encode ⟨header, none⟩ = encode ⟨header, some AuxPow.empty⟩ := rfl

theorem decode_of_missing {header : BlockHeader}
    (announced : Version.hasAuxpow header.version = true) :
    decode (encode ⟨header, none⟩) = .ok ⟨header, some AuxPow.empty⟩ := by
  rw [encode_of_missing]
  exact (decode_encode_iff (bounded_empty header)).mpr announced.symm

end ProvenHeader

namespace Block

/-- Whether no vector of a block is longer than any vector may be. -/
structure Bounded (block : Block) : Prop where
  proof : block.proven.Bounded
  count : block.transactions.length ≤ maxVectorSize
  transactions : ∀ tx ∈ block.transactions, tx.Fits

theorem decoder_reads :
    decoder.Reads encode fun block => block.proven.Announced ∧ block.Bounded := by
  intro bytes block rest
  simp only [decoder, encode, ProvenHeader.decoder_reads.bind_eq_ok_iff,
    Transaction.decoder_reads.vector.bind_eq_ok_iff, Decoder.apply_pure_eq_ok_iff,
    List.append_assoc]
  constructor
  · rintro ⟨proven, _, ⟨announced, proof⟩, rfl, transactions, _, ⟨few, fit⟩, rfl, rfl, rfl⟩
    exact ⟨⟨announced, proof, few, fit⟩, rfl⟩
  · rintro ⟨⟨announced, proof, few, fit⟩, rfl⟩
    exact ⟨block.proven, _, ⟨announced, proof⟩, rfl, block.transactions, rest, ⟨few, fit⟩, rfl, rfl,
      rfl⟩

/-- Which byte strings are blocks. -/
theorem decode_eq_ok_iff {bytes : Bytes} {block : Block} :
    decode bytes = .ok block ↔ (block.proven.Announced ∧ block.Bounded) ∧ bytes = block.encode :=
  decoder_reads.whole_eq_ok_iff

/-- What comes back as it is. -/
theorem decode_encode_iff {block : Block} (bounded : block.Bounded) :
    decode block.encode = .ok block ↔ block.proven.Announced := by
  rw [decode_eq_ok_iff]
  exact ⟨fun read => read.1.1, fun announced => ⟨⟨announced, bounded⟩, rfl⟩⟩

theorem decode_of_missing {header : BlockHeader} {transactions : List Transaction}
    (bounded : Bounded ⟨header, none, transactions⟩)
    (announced : Version.hasAuxpow header.version = true) :
    decode (encode ⟨header, none, transactions⟩) =
      .ok ⟨header, some AuxPow.empty, transactions⟩ := by
  have same : encode ⟨header, none, transactions⟩ =
      encode ⟨header, some AuxPow.empty, transactions⟩ := by
    rw [encode, encode, proven, proven, ProvenHeader.encode_of_missing]
  have bounded' : Bounded ⟨header, some AuxPow.empty, transactions⟩ :=
    ⟨ProvenHeader.bounded_empty header, bounded.count, bounded.transactions⟩
  rw [same]
  exact (decode_encode_iff bounded').mpr announced.symm

/-- No vector of a block is longer than the block, where what is attached is announced. -/
theorem bounded_of_length_le {block : Block} (announced : block.proven.Announced)
    (short : block.encode.length ≤ maxVectorSize) : block.Bounded := by
  rw [encode, List.length_append] at short
  refine ⟨fun auxpow given => AuxPow.fits_of_length_le ?_, ?_, fun tx held => ?_⟩
  · have written : Version.hasAuxpow block.proven.header.version = true := by
      rw [← announced, given, Option.isSome_some]
    rw [ProvenHeader.encode, if_pos written, given, Option.getD_some, List.length_append] at short
    omega
  · have counted := Wire.length_le_vector Transaction.encode
      (fun tx => by rw [← Transaction.size, Transaction.size_eq]; omega) block.transactions
    omega
  · have within := Wire.length_encode_le_vector Transaction.encode held
    exact Transaction.fits_of_size_le (by rw [Transaction.size]; omega)

variable [Primitives]

theorem announced_of_checkHeader {block : Block} {params : ChainParams}
    (passes : MergeMining.checkHeader block.header block.auxpow params = .ok ()) :
    block.proven.Announced := by
  simp only [MergeMining.checkHeader, Outcome.throw_bind, Outcome.refuse_eq_ok_iff] at passes
  obtain ⟨-, passes⟩ := passes
  rw [ProvenHeader.Announced, proven]
  cases given : block.auxpow with
  | none =>
    simp only [given, Outcome.refuse_eq_ok_iff] at passes
    simpa using passes.1
  | some auxpow =>
    simp only [given, Outcome.refuse_eq_ok_iff] at passes
    simpa using passes.1

/-- A block that passes on its own is what its encoding is read as. -/
theorem decode_of_check {block : Block} {params : ChainParams} {config : NodeConfig}
    (passes : block.check params config = .ok ()) (small : config.maxBlockSize ≤ maxVectorSize) :
    decode block.encode = .ok block := by
  obtain ⟨work, -, short, -⟩ := check_eq_ok_iff.mp passes
  have announced := announced_of_checkHeader work
  exact decode_eq_ok_iff.mpr
    ⟨⟨announced, bounded_of_length_le announced (Nat.le_trans short small)⟩, rfl⟩

end Block

namespace Wire

section Objects

/-- A byte string that is accepted as a transaction, a header, a merge-mining proof, a header with
its proof or a block is the encoding of what it is read as, and no other is read as the same. -/
theorem encode_of_decode :
    (∀ bytes tx, Transaction.decode bytes = .ok tx →
      tx.encode = bytes ∧ ∀ other, Transaction.decode other = .ok tx → other = bytes) ∧
    (∀ bytes header, BlockHeader.decode bytes = .ok header →
      header.encode = bytes ∧ ∀ other, BlockHeader.decode other = .ok header → other = bytes) ∧
    (∀ bytes auxpow, AuxPow.decode bytes = .ok auxpow →
      auxpow.encode = bytes ∧ ∀ other, AuxPow.decode other = .ok auxpow → other = bytes) ∧
    (∀ bytes proven, ProvenHeader.decode bytes = .ok proven →
      proven.encode = bytes ∧ ∀ other, ProvenHeader.decode other = .ok proven → other = bytes) ∧
    ∀ bytes block, Block.decode bytes = .ok block →
      block.encode = bytes ∧ ∀ other, Block.decode other = .ok block → other = bytes :=
  ⟨fun _ _ => Transaction.decoder_reads.encode_of_whole,
    fun _ _ => BlockHeader.decoder_reads.encode_of_whole,
    fun _ _ => AuxPow.decoder_reads.encode_of_whole,
    fun _ _ => ProvenHeader.decoder_reads.encode_of_whole,
    fun _ _ => Block.decoder_reads.encode_of_whole⟩

/-- What has no vector that is too long comes back from its encoding: transactions, headers and
proofs as they are, headers with proofs and blocks as they are exactly when the proof is there as
announced, and with the empty proof where an announced one is missing. So does every block that
passes on its own, as long as blocks may be no longer than vectors. -/
theorem decode_encode [Primitives] :
    (∀ tx : Transaction, tx.Fits → Transaction.decode tx.encode = .ok tx) ∧
    (∀ header : BlockHeader, BlockHeader.decode header.encode = .ok header) ∧
    (∀ auxpow : AuxPow, auxpow.Fits → AuxPow.decode auxpow.encode = .ok auxpow) ∧
    (∀ proven : ProvenHeader, proven.Bounded →
      (ProvenHeader.decode proven.encode = .ok proven ↔ proven.Announced)) ∧
    (∀ header : BlockHeader, Version.hasAuxpow header.version = true →
      ProvenHeader.decode (ProvenHeader.encode ⟨header, none⟩) =
        .ok ⟨header, some AuxPow.empty⟩) ∧
    (∀ block : Block, block.Bounded →
      (Block.decode block.encode = .ok block ↔ block.proven.Announced)) ∧
    (∀ (header : BlockHeader) (transactions : List Transaction),
      Block.Bounded ⟨header, none, transactions⟩ → Version.hasAuxpow header.version = true →
      Block.decode (Block.encode ⟨header, none, transactions⟩) =
        .ok ⟨header, some AuxPow.empty, transactions⟩) ∧
    ∀ (block : Block) (params : ChainParams) (config : NodeConfig),
      block.check params config = .ok () → config.maxBlockSize ≤ maxVectorSize →
      Block.decode block.encode = .ok block :=
  ⟨fun _ fits => Transaction.decode_eq_ok_iff.mpr ⟨fits, rfl⟩,
    fun _ => BlockHeader.decode_eq_ok_iff.mpr rfl,
    fun _ fits => AuxPow.decode_eq_ok_iff.mpr ⟨fits, rfl⟩,
    fun _ => ProvenHeader.decode_encode_iff,
    fun _ => ProvenHeader.decode_of_missing,
    fun _ => Block.decode_encode_iff,
    fun _ _ => Block.decode_of_missing,
    fun _ _ _ => Block.decode_of_check⟩

end Objects

namespace Relayed

local instance : Primitives := Primitives.transparent

def coinbase : Transaction :=
  Coinbase.build 1 [⟨5000000, [0x51]⟩]

/-- A header of this chain that announces a merge-mining proof. -/
def header : BlockHeader :=
  { BlockHeader.zero with
    version := 0x620104
    merkleRoot := Merkle.root [coinbase.txid]
    bits := 0x207fffff }

def proof : AuxPow :=
  MergeMining.build header 1

def block : Block where
  header := header
  auxpow := some proof
  transactions := [coinbase]

theorem encode_of_decode_relayed :
    Transaction.decode coinbase.encode = .ok coinbase ∧
      BlockHeader.decode header.encode = .ok header ∧
      AuxPow.decode proof.encode = .ok proof ∧
      ProvenHeader.decode block.proven.encode = .ok block.proven ∧
      Block.decode block.encode = .ok block ∧
      (∀ other, Transaction.decode other = .ok coinbase → other = coinbase.encode) ∧
      (∀ other, BlockHeader.decode other = .ok header → other = header.encode) ∧
      (∀ other, AuxPow.decode other = .ok proof → other = proof.encode) ∧
      (∀ other, ProvenHeader.decode other = .ok block.proven → other = block.proven.encode) ∧
      ∀ other, Block.decode other = .ok block → other = block.encode := by
  have transactionRead : Transaction.decode coinbase.encode = .ok coinbase := by decide +kernel
  have headerRead : BlockHeader.decode header.encode = .ok header := by decide +kernel
  have proofRead : AuxPow.decode proof.encode = .ok proof := by decide +kernel
  have provenRead : ProvenHeader.decode block.proven.encode = .ok block.proven := by
    decide +kernel
  have blockRead : Block.decode block.encode = .ok block := by decide +kernel
  obtain ⟨transactions, headers, proofs, provens, blocks⟩ := encode_of_decode
  exact ⟨transactionRead, headerRead, proofRead, provenRead, blockRead,
    (transactions _ _ transactionRead).2, (headers _ _ headerRead).2, (proofs _ _ proofRead).2,
    (provens _ _ provenRead).2, (blocks _ _ blockRead).2⟩

theorem decode_encode_relayed :
    block.check ChainParams.regtest NodeConfig.default = .ok () ∧
      NodeConfig.default.maxBlockSize ≤ maxVectorSize ∧
      coinbase.Fits ∧ proof.Fits ∧ block.proven.Bounded ∧ block.Bounded ∧
      Block.Bounded ⟨header, none, [coinbase]⟩ ∧ Version.hasAuxpow header.version = true ∧
      Transaction.decode coinbase.encode = .ok coinbase ∧
      AuxPow.decode proof.encode = .ok proof ∧
      ProvenHeader.decode block.proven.encode = .ok block.proven ∧
      ProvenHeader.decode (ProvenHeader.encode ⟨header, none⟩) =
        .ok ⟨header, some AuxPow.empty⟩ ∧
      Block.decode block.encode = .ok block ∧
      Block.decode (Block.encode ⟨header, none, [coinbase]⟩) =
        .ok ⟨header, some AuxPow.empty, [coinbase]⟩ := by
  have passes : block.check ChainParams.regtest NodeConfig.default = .ok () := by decide +kernel
  have small : NodeConfig.default.maxBlockSize ≤ maxVectorSize := by decide
  have announced : Version.hasAuxpow header.version = true := by decide
  have bounded : block.Bounded := Block.bounded_of_length_le announced.symm (by decide +kernel)
  have fits : coinbase.Fits := bounded.transactions coinbase List.mem_cons_self
  have fits' : proof.Fits := bounded.proof proof rfl
  have bare : Block.Bounded ⟨header, none, [coinbase]⟩ :=
    ⟨fun _ same => (by cases same), bounded.count, bounded.transactions⟩
  obtain ⟨transactions, -, proofs, provens, missingProofs, -, missing, checked⟩ := decode_encode
  exact ⟨passes, small, fits, fits', bounded.proof, bounded, bare, announced,
    transactions coinbase fits, proofs proof fits',
    (provens block.proven bounded.proof).mpr announced.symm, missingProofs header announced,
    checked block ChainParams.regtest NodeConfig.default passes small,
    missing header [coinbase] bare announced⟩

end Relayed

end Wire

end ScryptLedger
