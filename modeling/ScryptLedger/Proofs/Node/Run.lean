import Mathlib.Data.List.Induction
import ScryptLedger.Node
import ScryptLedger.Proofs.Chain.Provenance
import ScryptLedger.Proofs.Chain.Run

/-!
# Runs of a node

A run is what a node goes through when it is asked for one thing after the
other; a refused request leaves it as it is. Whatever is asked, at most one
part of the work is done: a block is connected, a transaction is admitted, or
blocks are ruled out or made permanent. The chain of a node goes through a run
of a chain, in which only the blocks are connected that the node connects.
-/

namespace ScryptLedger

/-- What can be asked of a node. -/
inductive NodeRequest where
  | submitBlock (bytes : Bytes)
  | submitTransaction (bytes : Bytes)
  | accept (tx : Transaction)
  | generate (script : Bytes) (time : Int)
  | invalidate (hash : Hash)
  | finalize (hash : Hash)
deriving DecidableEq

namespace Node

variable [Primitives]

section Requests

variable (node : Node)

/-- What a request makes of a node, unless it is refused. -/
def update? : NodeRequest → Option Node
  | .submitBlock bytes => (node.submitBlock bytes).toOption
  | .submitTransaction bytes => (node.submitTransaction bytes).toOption.map Prod.snd
  | .accept tx => (node.accept tx).toOption
  | .generate script time => (node.generate script time).toOption
  | .invalidate hash => (node.invalidate hash).toOption
  | .finalize hash => (node.finalize hash).toOption

/-- The node after a request. -/
def after (request : NodeRequest) : Node :=
  (node.update? request).getD node

/-- The node after some requests, one after the other. -/
def run (requests : List NodeRequest) : Node :=
  requests.foldl after node

/-- The block that a request is to connect. -/
def offered? : NodeRequest → Option Block
  | .submitBlock bytes => (Block.decode bytes).toOption
  | .generate script time => (node.mine script time).toOption
  | _ => none

/-- Whether a request connects a block. -/
def Connects (request : NodeRequest) (block : Block) : Prop :=
  node.offered? request = some block ∧ ∃ longer, node.connect block = .ok longer

/-- Whether a run connects a block at some point. -/
def HasConnected (requests : List NodeRequest) (block : Block) : Prop :=
  ∃ earlier request, earlier ++ [request] <+: requests ∧ (node.run earlier).Connects request block

end Requests

variable {node : Node}

section Answers

variable {later : Node} {bytes script : Bytes} {time : Int} {txid hash : Hash}

theorem submitBlock_eq_ok_iff : node.submitBlock bytes = .ok later ↔
    ∃ block, Block.decode bytes = .ok block ∧ node.connect block = .ok later := by
  rw [submitBlock]
  cases Block.decode bytes with
  | error _ => simp
  | ok block => cases connects : node.connect block <;> simp [connects]

theorem submitTransaction_eq_ok_iff : node.submitTransaction bytes = .ok (txid, later) ↔
    ∃ tx, Transaction.decode bytes = .ok tx ∧ tx.txid = txid ∧ node.accept tx = .ok later := by
  rw [submitTransaction]
  cases Transaction.decode bytes with
  | error _ => simp
  | ok tx => cases admits : node.accept tx <;> simp [admits]

theorem generate_eq_ok_iff : node.generate script time = .ok later ↔
    ∃ block, node.mine script time = .ok block ∧ node.connect block = .ok later := by
  rw [generate]
  cases node.mine script time with
  | error _ => simp
  | ok block => cases connects : node.connect block <;> simp [connects]

theorem invalidate_eq_ok_iff : node.invalidate hash = .ok later ↔
    ∃ update, node.chain.invalidate hash = .ok update ∧
      { node.follow update with
        mempool := (node.mempool.removeInvalid update.chain).1 } = later := by
  rw [invalidate]
  cases node.chain.invalidate hash with
  | error _ => simp
  | ok update => simp [follow]

omit [Primitives] in
theorem finalize_eq_ok_iff : node.finalize hash = .ok later ↔
    ∃ update, node.chain.finalize hash = .ok update ∧ node.follow update = later := by
  rw [finalize]
  cases node.chain.finalize hash with
  | error _ => simp
  | ok update => simp

end Answers

/-- What one request comes to, as far as the chain and the pool go. -/
inductive Change (node : Node) : NodeRequest → Node → Prop
  | refused (request : NodeRequest) : Change node request node
  | connected {request : NodeRequest} {later : Node} (block : Block) (connected : Connected)
      (connects : node.Connects request block) (fits : node.chain.Extends block connected)
      (chain : later.chain = node.chain.grow block connected)
      (mempool : later.mempool = (node.mempool.removeForBlock block).1) :
      Change node request later
  | admitted {request : NodeRequest} {later : Node} (tx : Transaction)
      (admitted : node.mempool.accept tx node.chain = .ok later.mempool)
      (chain : later.chain = node.chain) : Change node request later
  | invalidated {later : Node} (hash : Hash) (update : ChainUpdate)
      (done : node.chain.invalidate hash = .ok update) (chain : later.chain = update.chain)
      (mempool : later.mempool = (node.mempool.removeInvalid update.chain).1) :
      Change node (.invalidate hash) later
  | finalized {later : Node} (hash : Hash) (update : ChainUpdate)
      (done : node.chain.finalize hash = .ok update) (chain : later.chain = update.chain)
      (mempool : later.mempool = node.mempool) : Change node (.finalize hash) later

theorem change_of_connect {request : NodeRequest} {block : Block} {later : Node}
    (offered : node.offered? request = some block) (done : node.connect block = .ok later) :
    node.Change request later := by
  obtain ⟨update, grown, same⟩ := Outcome.bind_eq_ok_iff.mp done
  obtain ⟨connected, fits, rfl⟩ := Chain.connect_eq_ok_iff.mp grown
  obtain rfl := Outcome.pure_eq_ok_iff.mp same
  exact .connected block connected ⟨offered, _, done⟩ fits rfl rfl

theorem change_of_accept {request : NodeRequest} {tx : Transaction} {later : Node}
    (done : node.accept tx = .ok later) : node.Change request later := by
  obtain ⟨mempool, admitted, same⟩ := Outcome.bind_eq_ok_iff.mp done
  obtain rfl := Outcome.pure_eq_ok_iff.mp same
  exact .admitted tx admitted rfl

/-- Every request is refused, or comes to one of the changes. -/
theorem change_of_after (node : Node) (request : NodeRequest) :
    node.Change request (node.after request) := by
  rw [after]
  cases done : node.update? request with
  | none => exact .refused request
  | some later =>
    rw [Option.getD_some]
    cases request with
    | submitBlock bytes =>
      obtain ⟨block, decoded, connects⟩ :=
        submitBlock_eq_ok_iff.mp (Outcome.toOption_eq_some_iff.mp done)
      exact change_of_connect (Outcome.toOption_eq_some_iff.mpr decoded) connects
    | submitTransaction bytes =>
      obtain ⟨⟨txid, _⟩, answered, rfl⟩ := Option.map_eq_some_iff.mp done
      obtain ⟨tx, -, -, admitted⟩ :=
        submitTransaction_eq_ok_iff.mp (Outcome.toOption_eq_some_iff.mp answered)
      exact change_of_accept admitted
    | accept tx => exact change_of_accept (Outcome.toOption_eq_some_iff.mp done)
    | generate script time =>
      obtain ⟨block, mined, connects⟩ :=
        generate_eq_ok_iff.mp (Outcome.toOption_eq_some_iff.mp done)
      exact change_of_connect (Outcome.toOption_eq_some_iff.mpr mined) connects
    | invalidate hash =>
      obtain ⟨update, invalidated, rfl⟩ :=
        invalidate_eq_ok_iff.mp (Outcome.toOption_eq_some_iff.mp done)
      exact .invalidated hash update invalidated rfl rfl
    | finalize hash =>
      obtain ⟨update, finalized, rfl⟩ :=
        finalize_eq_ok_iff.mp (Outcome.toOption_eq_some_iff.mp done)
      exact .finalized hash update finalized rfl rfl

theorem run_append (node : Node) (earlier later : List NodeRequest) :
    node.run (earlier ++ later) = (node.run earlier).run later :=
  List.foldl_append

theorem run_concat (node : Node) (earlier : List NodeRequest) (request : NodeRequest) :
    node.run (earlier ++ [request]) = (node.run earlier).after request :=
  run_append node earlier [request]

theorem HasConnected.of_prefix {earlier requests : List NodeRequest} {block : Block}
    (connected : node.HasConnected earlier block) (started : earlier <+: requests) :
    node.HasConnected requests block := by
  obtain ⟨past, request, first, connects⟩ := connected
  exact ⟨past, request, first.trans started, connects⟩

/-- The chain of a node goes through a run that connects the blocks which the node connects. -/
theorem chain_run (node : Node) (requests : List NodeRequest) :
    ∃ changes, (node.run requests).chain = node.chain.run changes ∧
      ∀ block, .connect block ∈ changes → node.HasConnected requests block := by
  induction requests using List.reverseRecOn with
  | nil => exact ⟨[], rfl, fun block impossible => by cases impossible⟩
  | append_singleton earlier request ih =>
    obtain ⟨changes, reached, origin⟩ := ih
    have kept : ∀ block, .connect block ∈ changes →
        node.HasConnected (earlier ++ [request]) block :=
      fun block held =>
        HasConnected.of_prefix (origin block held) (List.prefix_append earlier [request])
    rw [run_concat]
    have change := change_of_after (node.run earlier) request
    generalize (node.run earlier).after request = later at change
    have extended : ∀ (next : ChainRequest) (update : ChainUpdate),
        (node.run earlier).chain.update? next = some update → later.chain = update.chain →
        (∀ block, next = .connect block → (node.run earlier).Connects request block) →
        ∃ changes, later.chain = node.chain.run changes ∧
          ∀ block, .connect block ∈ changes → node.HasConnected (earlier ++ [request]) block := by
      intro next update changed chain connects
      refine ⟨changes ++ [next], ?_, fun block held => ?_⟩
      · rw [chain, Chain.run_concat, ← reached, Chain.after_of_update? changed]
      · rcases List.mem_append.mp held with old | new
        · exact kept block old
        · exact ⟨earlier, request, List.prefix_refl _,
            connects block (List.mem_singleton.mp new).symm⟩
    cases change with
    | refused => exact ⟨changes, reached, kept⟩
    | admitted _ _ chain => exact ⟨changes, chain.trans reached, kept⟩
    | connected block connected connects fits chain =>
      refine extended (.connect block) _ (Outcome.toOption_eq_some_iff.mpr
        (Chain.connect_eq_ok_iff.mpr ⟨connected, fits, rfl⟩)) chain ?_
      rintro _ ⟨⟩
      exact connects
    | invalidated hash update done chain =>
      exact extended (.invalidate hash) update (Outcome.toOption_eq_some_iff.mpr done) chain
        (by rintro _ ⟨⟩)
    | finalized hash update done chain =>
      exact extended (.finalize hash) update (Outcome.toOption_eq_some_iff.mpr done) chain
        (by rintro _ ⟨⟩)

/-- Every coin of a node's chain is an output of a block that the node has connected. -/
theorem makes_of_view {rules : Rules} (fresh : node.chain = Chain.new rules)
    {requests : List NodeRequest} {outpoint : OutPoint} {coin : Coin}
    (there : (node.run requests).chain.coins.view outpoint = some coin) :
    ∃ block, node.HasConnected requests block ∧ block.Makes outpoint coin := by
  obtain ⟨changes, reached, origin⟩ := node.chain_run requests
  rw [fresh] at reached
  rw [reached] at there
  obtain ⟨later, entry, below, split, -, made, -⟩ :=
    (Chain.levels_allLeftBy rules changes).top outpoint coin there
  obtain ⟨past, connected, started, -⟩ := Chain.origin_of_run rfl split
  have asked : .connect entry.block ∈ changes :=
    started.subset (List.mem_append_right past (List.mem_singleton_self _))
  exact ⟨entry.block, origin entry.block asked, made⟩

end Node

end ScryptLedger
