import Kyzo.Store.Wal

/-!
# Chained state roots

The meaning-layer chain of a store: each commit mints a root over its content and the root before
it. A durable cut composes the tip of this chain with the tip of the WAL.
-/

namespace Kyzo

structure StateRoot where
  digest : Bytes32
  deriving DecidableEq

def genesisRoot : StateRoot := ⟨.replicate 0⟩

inductive ChainLinkKind where
  | ordinary
  | recovery
  | fork

/-- The tag byte of a link in `chain_bind`. -/
def ChainLinkKind.tag : ChainLinkKind → UInt8
  | .ordinary => 1
  | .recovery => 2
  | .fork => 3

variable (sha : Bytes → Bytes32)

def chainBind (contentRoot predecessorRoot : StateRoot) (link : ChainLinkKind)
    (commitOrdinal : CommitOrdinal) : StateRoot :=
  ⟨sha (ascii "kyzo.chained_state_root.v1" ++ contentRoot.digest.bytes ++
    predecessorRoot.digest.bytes ++ [link.tag] ++ u64Bytes commitOrdinal.raw)⟩

structure ChainedStateRoot where
  storeId : StoreId
  fenceEpoch : FenceEpoch
  commitOrdinal : CommitOrdinal
  root : StateRoot
  predecessorRoot : StateRoot
  link : ChainLinkKind

def ChainedStateRoot.mint (storeId : StoreId) (fenceEpoch : FenceEpoch)
    (commitOrdinal : CommitOrdinal) (contentRoot predecessorRoot : StateRoot)
    (link : ChainLinkKind) : ChainedStateRoot :=
  let root := chainBind sha contentRoot predecessorRoot link commitOrdinal
  ⟨storeId, fenceEpoch, commitOrdinal, root, predecessorRoot, link⟩

inductive MerkleChainRefuse where
  /-- "merkle chain: predecessor root mismatch". -/
  | predecessorMismatch
  /-- "merkle chain: as-of cut before genesis mint". -/
  | cutBeforeGenesis
  /-- "merkle chain: path/URL sameness is not store equivalence". -/
  | pathUrlSameness

structure RootChain where
  links : List ChainedStateRoot

namespace RootChain

def empty : RootChain := ⟨[]⟩

variable (chain : RootChain)

def priorRoot : StateRoot :=
  (chain.links.getLast?.map ChainedStateRoot.root).getD genesisRoot

def append (link : ChainedStateRoot) : Except MerkleChainRefuse RootChain :=
  let expected := (chain.links.getLast?.map ChainedStateRoot.root).getD genesisRoot
  if link.predecessorRoot ≠ expected then .error .predecessorMismatch
  else .ok ⟨chain.links ++ [link]⟩

/-- The loop of `link_at_cut`, which stops at the first link past the cut. -/
def linkAtCutFrom (cut : CommitOrdinal) :
    Option ChainedStateRoot → List ChainedStateRoot → Option ChainedStateRoot
  | best, [] => best
  | best, link :: links =>
    if link.commitOrdinal.raw ≤ cut.raw then linkAtCutFrom cut (some link) links else best

def linkAtCut (cut : CommitOrdinal) : Except MerkleChainRefuse ChainedStateRoot :=
  match linkAtCutFrom cut none chain.links with
  | some link => .ok link
  | none => .error .cutBeforeGenesis

def asOfRoot (cut : CommitOrdinal) : Except MerkleChainRefuse StateRoot :=
  (chain.linkAtCut cut).map ChainedStateRoot.root

/-- Every link covers the root before it. -/
def Linked : StateRoot → List ChainedStateRoot → Prop
  | _, [] => True
  | prior, link :: links => link.predecessorRoot = prior ∧ Linked link.root links

variable {chain} {chain' : RootChain} {link : ChainedStateRoot}

lemma append_eq_ok : chain.append link = .ok chain' ↔
    link.predecessorRoot = chain.priorRoot ∧ chain' = ⟨chain.links ++ [link]⟩ := by
  rw [append]
  split_ifs with h
  · exact iff_of_false (by simp) fun hand => h hand.1
  · exact ⟨fun hok => ⟨not_not.mp h, (Except.ok.inj hok).symm⟩, fun hand => hand.2 ▸ rfl⟩

lemma linked_concat {prior : StateRoot} {links : List ChainedStateRoot} (h : Linked prior links)
    (hlink : link.predecessorRoot = (links.getLast?.map ChainedStateRoot.root).getD prior) :
    Linked prior (links ++ [link]) := by
  induction links generalizing prior with
  | nil => exact ⟨hlink, trivial⟩
  | cons first links ih =>
    refine ⟨h.1, ih h.2 ?_⟩
    rw [hlink, List.getLast?_cons]
    cases links.getLast? <;> rfl

end RootChain

structure DurableCutDigest where
  digest : Bytes32

def composeDurableCut (meaningRoot : StateRoot) (walFinalHash : WalHash)
    (commitOrdinal : CommitOrdinal) : DurableCutDigest :=
  ⟨sha (ascii "kyzo.durable_commit_cut.v1" ++ meaningRoot.digest.bytes ++ walFinalHash.bytes ++
    u64Bytes commitOrdinal.raw)⟩

structure DurableCommitCut where
  meaningRoot : StateRoot
  commitOrdinal : CommitOrdinal
  walFinalHash : WalHash
  composed : DurableCutDigest

def DurableCommitCut.compose (meaning : ChainedStateRoot) (walFinalHash : WalHash) :
    DurableCommitCut :=
  ⟨meaning.root, meaning.commitOrdinal, walFinalHash,
    composeDurableCut sha meaning.root walFinalHash meaning.commitOrdinal⟩

end Kyzo
