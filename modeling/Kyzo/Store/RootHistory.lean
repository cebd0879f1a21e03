import Kyzo.Store.RootChain

/-!
# The history of a root chain

A root binds the content and the ordinal of its commit and the root before it, in a text of fixed
width.  So a root fixes every link up to its own, and the chain is searched by ordinal for the root
a cut had.
-/

namespace Kyzo

open List

/-- What one root binds. -/
structure Binding where
  contentRoot : StateRoot
  predecessorRoot : StateRoot
  link : ChainLinkKind
  commitOrdinal : CommitOrdinal

/-- What `chain_bind` hashes. -/
def Binding.preimage (b : Binding) : Bytes :=
  ascii "kyzo.chained_state_root.v1" ++ b.contentRoot.digest.bytes ++
    b.predecessorRoot.digest.bytes ++ [b.link.tag] ++ u64Bytes b.commitOrdinal.raw

lemma ChainLinkKind.tag_injective : Function.Injective tag := by
  rintro (_ | _ | _) (_ | _ | _) h <;> first | rfl | exact absurd h (by decide)

lemma Binding.preimage_injective : Function.Injective preimage := by
  rintro ⟨⟨content⟩, ⟨predecessor⟩, link, ⟨ordinal⟩⟩
    ⟨⟨content'⟩, ⟨predecessor'⟩, link', ⟨ordinal'⟩⟩ h
  simp only [preimage, append_assoc, append_cancel_left_eq] at h
  obtain ⟨hcontent, h⟩ := append_inj h (by simp)
  obtain ⟨hpredecessor, h⟩ := append_inj h (by simp)
  obtain ⟨htag, hordinal⟩ := cons.inj h
  rw [Bytes32.bytes_injective hcontent, Bytes32.bytes_injective hpredecessor,
    ChainLinkKind.tag_injective htag, u64Bytes_injective hordinal]

namespace RootChain

variable (sha : Bytes → Bytes32)

/-- The chains that `append` builds of minted links, with what their roots bind. -/
inductive Built : List Binding → RootChain → Prop
  | empty : Built [] RootChain.empty
  | append {bound : List Binding} {chain chain' : RootChain} {storeId : StoreId}
      {fenceEpoch : FenceEpoch} {b : Binding} : Built bound chain →
      chain.append (.mint sha storeId fenceEpoch b.commitOrdinal b.contentRoot b.predecessorRoot
        b.link) = .ok chain' → Built (bound ++ [b]) chain'

variable {sha} {bound bound' : List Binding} {chain chain' : RootChain} {link : ChainedStateRoot}

lemma Built.isChain (h : Built sha bound chain) :
    chain.links.IsChain fun link next => next.predecessorRoot = link.root := by
  induction h with
  | empty => exact .nil
  | append hbuilt happ ih =>
    obtain ⟨hprior, rfl⟩ := append_eq_ok.mp happ
    refine isChain_append.mpr ⟨ih, .singleton _, ?_⟩
    rintro last hlast _ ⟨⟩
    rw [hprior, priorRoot, hlast]
    rfl

/-- **A root fixes the links up to its own**. -/
theorem Built.bound_eq (h : Built sha bound chain) (h' : Built sha bound' chain')
    (hfree : CollisionFree sha ((bound ++ bound').map Binding.preimage))
    (hlen : chain.links.length = chain'.links.length) (hroot : chain.priorRoot = chain'.priorRoot) :
    bound = bound' := by
  induction h generalizing bound' chain' with
  | empty =>
    cases h' with
    | empty => rfl
    | append hbuilt' happ' =>
      obtain ⟨-, rfl⟩ := append_eq_ok.mp happ'
      simp [RootChain.empty] at hlen
  | append hbuilt happ ih =>
    obtain ⟨hprior, rfl⟩ := append_eq_ok.mp happ
    cases h' with
    | empty => simp [RootChain.empty] at hlen
    | append hbuilt' happ' =>
      obtain ⟨hprior', rfl⟩ := append_eq_ok.mp happ'
      simp only [priorRoot, getLast?_concat, Option.map_some, Option.getD_some] at hroot
      obtain rfl := Binding.preimage_injective
        (hfree _ (by simp) _ (by simp) (congrArg StateRoot.digest hroot))
      rw [ih hbuilt' ?_ (by simpa using hlen) (hprior.symm.trans hprior')]
      exact fun a ha b hb => hfree a (by grind) b (by grind)

variable {cut : CommitOrdinal} {best : Option ChainedStateRoot} {links : List ChainedStateRoot}

/-- The link a cut is read from. -/
def LatestAt (chain : RootChain) (cut : CommitOrdinal) (link : ChainedStateRoot) : Prop :=
  link ∈ chain.links ∧ link.commitOrdinal.raw ≤ cut.raw ∧
    ∀ other ∈ chain.links, other.commitOrdinal.raw ≤ cut.raw →
      other.commitOrdinal.raw ≤ link.commitOrdinal.raw

lemma linkAtCutFrom_of_past (h : ∀ link ∈ links, cut.raw < link.commitOrdinal.raw) :
    linkAtCutFrom cut best links = best := by
  cases links with
  | nil => rfl
  | cons first links => exact if_neg (UInt64.not_le.mpr (h first (.head _)))

lemma linkAtCutFrom_ne_none : linkAtCutFrom cut (some link) links ≠ none := by
  induction links generalizing link with
  | nil => simp [linkAtCutFrom]
  | cons first links ih =>
    rw [linkAtCutFrom]
    split_ifs
    · exact ih
    · simp

variable (h : links.Pairwise fun a b => a.commitOrdinal.raw < b.commitOrdinal.raw)
include h

lemma linkAtCutFrom_of_latest (hlink : LatestAt ⟨links⟩ cut link) :
    linkAtCutFrom cut best links = some link := by
  induction links generalizing best with
  | nil => cases hlink.1
  | cons first links ih =>
    obtain ⟨hmem, hcut, hlatest⟩ := hlink
    obtain ⟨hfirst, hlinks⟩ := pairwise_cons.mp h
    rw [linkAtCutFrom]
    obtain rfl | hmem := mem_cons.mp hmem
    · rw [if_pos hcut, linkAtCutFrom_of_past]
      -- A later link within the cut would be later than the latest.
      intro other hother
      by_contra hle
      exact UInt64.not_le.mpr (hfirst other hother)
        (hlatest other (.tail _ hother) (UInt64.not_lt.mp hle))
    · rw [if_pos (UInt64.le_trans (UInt64.le_of_lt (hfirst link hmem)) hcut)]
      exact ih hlinks ⟨hmem, hcut, fun other hother => hlatest other (.tail _ hother)⟩

lemma linkAtCutFrom_eq_none_iff :
    linkAtCutFrom cut none links = none ↔ ∀ link ∈ links, cut.raw < link.commitOrdinal.raw := by
  refine ⟨fun hnone => ?_, linkAtCutFrom_of_past⟩
  cases links with
  | nil => exact forall_mem_nil _
  | cons first links =>
    rw [linkAtCutFrom] at hnone
    split_ifs at hnone with hle
    · exact absurd hnone linkAtCutFrom_ne_none
    · rw [UInt64.not_le] at hle
      exact forall_mem_cons.mpr
        ⟨hle, fun link hlink => UInt64.lt_trans hle ((pairwise_cons.mp h).1 link hlink)⟩

end RootChain

open RootChain in
/-- **The history of a root chain**: each link covers the root before it; two chains of one length
with one last root bind the same contents and ordinals at every link; and a cut is read from the
latest link it covers, or refused if it covers none. -/
theorem rootChain_history (sha : Bytes → Bytes32) : (∀ bound chain, Built sha bound chain →
      chain.links.IsChain fun link next => next.predecessorRoot = link.root) ∧
    (∀ bound chain bound' chain', Built sha bound chain → Built sha bound' chain' →
      CollisionFree sha ((bound ++ bound').map Binding.preimage) →
      chain.links.length = chain'.links.length → chain.priorRoot = chain'.priorRoot →
      bound = bound') ∧
    ∀ (chain : RootChain) cut,
      (chain.links.Pairwise fun a b => a.commitOrdinal.raw < b.commitOrdinal.raw) →
      (∀ link, chain.LatestAt cut link → chain.asOfRoot cut = .ok link.root) ∧
      (chain.asOfRoot cut = .error .cutBeforeGenesis ↔
        ∀ link ∈ chain.links, cut.raw < link.commitOrdinal.raw) := by
  refine ⟨fun bound chain => Built.isChain, fun bound chain bound' chain' => Built.bound_eq, ?_⟩
  intro chain cut h
  constructor
  · intro link hlink
    rw [asOfRoot, linkAtCut, linkAtCutFrom_of_latest h hlink]
    rfl
  · rw [← linkAtCutFrom_eq_none_iff h, asOfRoot, linkAtCut]
    cases linkAtCutFrom cut none chain.links <;> simp [Except.map]

/-- The last 32 bytes of a text, for a digest of it. -/
def lastBytes (text : Bytes) : Bytes32 := .ofNat (beNat text)

/-- What two links bind. -/
def firstBinding : Binding := ⟨⟨.replicate 1⟩, genesisRoot, .ordinary, ⟨1⟩⟩
def secondBinding : Binding :=
  ⟨⟨.replicate 2⟩, ⟨lastBytes firstBinding.preimage⟩, .ordinary, ⟨3⟩⟩

/-- The link of a binding, under that digest. -/
def Binding.mint (b : Binding) : ChainedStateRoot :=
  .mint lastBytes ⟨.replicate 0⟩ ⟨1⟩ b.commitOrdinal b.contentRoot b.predecessorRoot b.link

open RootChain in
/-- Two links at the ordinals 1 and 3: a cut at 2 is read from the first, and a cut at 0 is
refused. -/
theorem rootChain_history_two : ∃ bound chain link, Built lastBytes bound chain ∧
    CollisionFree lastBytes ((bound ++ bound).map Binding.preimage) ∧ chain.LatestAt ⟨2⟩ link ∧
    (chain.links.IsChain fun link next => next.predecessorRoot = link.root) ∧
    chain.asOfRoot ⟨2⟩ = .ok link.root ∧ chain.asOfRoot ⟨0⟩ = .error .cutBeforeGenesis := by
  obtain ⟨hchain, -, hcut⟩ := rootChain_history lastBytes
  have hbuilt : Built lastBytes [firstBinding, secondBinding]
      ⟨[firstBinding.mint, secondBinding.mint]⟩ :=
    .append (.append .empty (append_eq_ok.mpr ⟨rfl, rfl⟩)) (append_eq_ok.mpr ⟨rfl, rfl⟩)
  have hlatest : LatestAt ⟨[firstBinding.mint, secondBinding.mint]⟩ ⟨2⟩ firstBinding.mint :=
    ⟨.head _, by decide, by decide⟩
  exact ⟨_, _, _, hbuilt, by decide +kernel, hlatest, hchain _ _ hbuilt,
    (hcut _ _ (by decide)).1 _ hlatest, (hcut _ _ (by decide)).2.mpr (by decide)⟩

end Kyzo
