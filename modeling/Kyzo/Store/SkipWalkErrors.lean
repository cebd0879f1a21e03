import Kyzo.Store.SkipWalkRuns
import Mathlib.Logic.Relation

/-!
# Errors of the skip walk

What the calls of `SkipWalk::next` answer after an error.  A value without a polarity and a key out
of form leave the walk where it stands, so the error comes again.  A seek that fails is made again
by the next call and may then succeed, and a payload that does not decode is found only after the
walk has moved on: past these two kinds of failures the walk goes on, and whether it yields a fact
there depends on the rows that follow.
-/

namespace Kyzo

open Option Version Relation

namespace SkipWalk

variable {w w' : SkipWalk} {item : Except ScanError (List RawValue)}

/-- What the calls of `next` answer, counted from 0.  After the end there is nothing more to
seek. -/
def calls (w : SkipWalk) : ℕ → Option (Except ScanError (List RawValue))
  | 0 => w.next.map Prod.fst
  | n + 1 => w.next.bind fun item => item.2.calls n

/-! ## The rows the walk comes to -/

/-- One turn of the loop leads from a walk to the next.  Where it leads does not depend on
payloads. -/
def Turns (w w' : SkipWalk) : Prop := ∃ item, w.turn = some (item, w')

/-- The walk stands before a row to emit: a key `tup` with an asserted value `v` that governs at the
query times. -/
def Due (w : SkipWalk) (tup : List RawValue) (v : Bytes) : Prop :=
  compare w.nextBound w.upper = .lt ∧ ∃ k polarity bound, w.seek = some (.ok (k, v)) ∧
    claimPolarityOfValue v = .ok polarity ∧
    checkKeyForBitemporal k polarity w.asOf = .ok (some tup, bound)

/-- The next seek fails, or the walk stands before a row to emit whose payload does not decode. -/
def Fails (w : SkipWalk) : Prop :=
  (compare w.nextBound w.upper = .lt ∧ ∃ e, w.seek = some (.error e)) ∨
    ∃ tup v e, w.Due tup v ∧ extendTupleFromBitemporalV tup v = .error e

/-- The walk stands before a row to emit whose payload decodes. -/
def Finds (w : SkipWalk) : Prop :=
  ∃ tup v row, w.Due tup v ∧ extendTupleFromBitemporalV tup v = .ok row

/-- The entry ahead has no polarity or a key out of form. -/
def Blocked (w : SkipWalk) : Prop :=
  ∃ k v, w.map.entries.find? (fun e => compare w.nextBound e.1 ≠ .gt ∧ compare e.1 w.upper = .lt) =
      some (k, v) ∧ ∀ polarity, claimPolarityOfValue v = .ok polarity →
        ∃ e, checkKeyForBitemporal k polarity w.asOf = .error e

lemma Due.turn {tup : List RawValue} {v : Bytes} (h : w.Due tup v) :
    ∃ w', w.turn = some (some (extendTupleFromBitemporalV tup v), w') := by
  obtain ⟨hbound, k, polarity, bound, hseek, hpol, hkey⟩ := h
  refine ⟨w.advance k bound, ?_⟩
  rw [turn_of_seek hbound hseek, visit, hpol]
  simp only [hkey]

lemma Fails.turn (h : w.Fails) : ∃ e w', w.turn = some (some (.error e), w') := by
  rcases h with ⟨hbound, e, hseek⟩ | ⟨tup, v, e, hdue, herror⟩
  · refine ⟨e, w.sought, ?_⟩
    rw [SkipWalk.turn, if_neg (not_not.mpr hbound), hseek]
  · obtain ⟨w', hturn⟩ := hdue.turn
    exact ⟨e, w', herror ▸ hturn⟩

lemma Finds.turn (h : w.Finds) : ∃ row w', w.turn = some (some (.ok row), w') := by
  obtain ⟨tup, v, row, hdue, hrow⟩ := h
  obtain ⟨w', hturn⟩ := hdue.turn
  exact ⟨row, w', hrow ▸ hturn⟩

/-- What a turn that returns an item has found. -/
theorem turn_returns (h : w.turn = some (some item, w')) :
    (∃ e, item = .error e ∧ (w.Fails ∨ w.Blocked)) ∨
      ∃ row, item = .ok row ∧ w.Finds := by
  unfold SkipWalk.turn at h
  split_ifs at h with hend
  have hbound := not_not.mp hend
  split at h
  case h_1 => cases h
  case h_2 e hseek =>
    cases h
    exact .inl ⟨e, rfl, .inl (.inl ⟨hbound, e, hseek⟩)⟩
  case h_3 k v hseek =>
    unfold visit at h
    split at h
    case h_1 e hpol =>
      cases h
      refine .inl ⟨e, rfl, .inr ⟨k, v, find?_of_seek hseek, fun polarity hok => ?_⟩⟩
      cases hpol.symm.trans hok
    case h_2 polarity hpol =>
      split at h
      case h_1 e hkey =>
        cases h
        refine .inl ⟨e, rfl, .inr ⟨k, v, find?_of_seek hseek, fun polarity' hok => ⟨e, ?_⟩⟩⟩
        cases hpol.symm.trans hok
        exact hkey
      case h_2 tup bound hkey =>
        obtain ⟨hitem, -⟩ := Prod.mk.inj (some.inj h)
        have hdue : w.Due tup v := ⟨hbound, k, polarity, bound, hseek, hpol, hkey⟩
        cases hrow : extendTupleFromBitemporalV tup v with
        | error e =>
          exact .inl ⟨e, by rw [← some.inj hitem, hrow], .inl (.inr ⟨tup, v, e, hdue, hrow⟩)⟩
        | ok row => exact .inr ⟨row, by rw [← some.inj hitem, hrow], tup, v, row, hdue, hrow⟩
      case h_3 => cases h

/-! ## Entries that stop the walk -/

/-- Before an entry without a polarity or with a key out of form the walk stays, and finds
nothing. -/
theorem Blocked.turns (h : w.Blocked) (hturns : w.Turns w') : w'.Blocked := by
  obtain ⟨k, v, hfind, hkey⟩ := h
  obtain ⟨item, hturn⟩ := hturns
  suffices hsought : w' = w.sought from hsought ▸ ⟨k, v, hfind, hkey⟩
  unfold SkipWalk.turn at hturn
  split_ifs at hturn
  split at hturn
  case h_1 => cases hturn
  case h_2 => exact (Prod.mk.inj (some.inj hturn)).2.symm
  case h_3 k' v' hseek =>
    cases hfind.symm.trans (find?_of_seek hseek)
    unfold visit at hturn
    split at hturn
    case h_1 => exact (Prod.mk.inj (some.inj hturn)).2.symm
    case h_2 polarity hpol =>
      obtain ⟨e, herror⟩ := hkey polarity hpol
      rw [herror] at hturn
      exact (Prod.mk.inj (some.inj hturn)).2.symm

lemma Blocked.not_finds (h : w.Blocked) : ¬ w.Finds := by
  rintro ⟨tup, v', row, ⟨-, k', polarity, bound, hseek, hpol, hdue⟩, -⟩
  obtain ⟨k, v, hfind, hkey⟩ := h
  cases hfind.symm.trans (find?_of_seek hseek)
  obtain ⟨e, herror⟩ := hkey polarity hpol
  cases herror.symm.trans hdue

lemma Blocked.run (h : w.Blocked) (hrun : ReflTransGen Turns w w') : w'.Blocked := by
  induction hrun with
  | refl => exact h
  | tail _ hturn ih => exact ih.turns hturn

/-! ## Calls and turns -/

lemma calls_of_skip (h : w.turn = some (none, w')) (n : ℕ) : w.calls n = w'.calls n := by
  have hnext : w.next = w'.next := by rw [next_eq, h]
  cases n with
  | zero => rw [calls, calls, hnext]
  | succ n => rw [calls, calls, hnext]

lemma next_of_turn (h : w.turn = some (some item, w')) : w.next = some (item, w') := by
  rw [next_eq, h]

/-- The calls of a walk the loop comes to are the later calls of the first walk. -/
theorem calls_of_run (hrun : ReflTransGen Turns w w') : ∃ m, ∀ n, w.calls (n + m) = w'.calls n := by
  induction hrun using ReflTransGen.head_induction_on with
  | refl => exact ⟨0, fun n => rfl⟩
  | @head w w₁ hturn _ ih =>
    obtain ⟨m, hm⟩ := ih
    obtain ⟨item, hturn⟩ := hturn
    cases item with
    | none => exact ⟨m, fun n => (calls_of_skip hturn _).trans (hm n)⟩
    | some item =>
      refine ⟨m + 1, fun n => ?_⟩
      rw [← Nat.add_assoc, calls, next_of_turn hturn]
      exact hm n

lemma next_eq_some (h : w.next = some (item, w')) :
    ∃ w₁, ReflTransGen Turns w w₁ ∧ w₁.turn = some (some item, w') := by
  fun_induction SkipWalk.next w with
  | case1 w hturn => cases h
  | case2 w item' w'' hturn =>
    cases h
    exact ⟨w, .refl, hturn⟩
  | case3 w w'' hturn ih =>
    obtain ⟨w₁, hrun, hlast⟩ := ih h
    exact ⟨w₁, .head ⟨none, hturn⟩ hrun, hlast⟩

/-- A call that answers has come to the turn that returns its answer. -/
theorem run_of_calls {m : ℕ} (h : w.calls m = some item) : ∃ w₁ w₂, ReflTransGen Turns w w₁ ∧
    w₁.turn = some (some item, w₂) ∧ ∀ n, w.calls (n + (m + 1)) = w₂.calls n := by
  induction m generalizing w with
  | zero =>
    obtain ⟨⟨item, w₂⟩, hnext, rfl⟩ := map_eq_some_iff.mp h
    obtain ⟨w₁, hrun, hturn⟩ := next_eq_some hnext
    exact ⟨w₁, w₂, hrun, hturn, fun n => by rw [calls, hnext]; rfl⟩
  | succ m ih =>
    obtain ⟨⟨first, w'⟩, hnext, hcalls⟩ := bind_eq_some_iff.mp h
    obtain ⟨w₀, hrun₀, hturn₀⟩ := next_eq_some hnext
    obtain ⟨w₁, w₂, hrun, hturn, hrest⟩ := ih hcalls
    refine ⟨w₁, w₂, (hrun₀.tail ⟨_, hturn₀⟩).trans hrun, hturn, fun n => ?_⟩
    rw [← Nat.add_assoc, calls, hnext]
    exact hrest n

lemma turn_of_assert (r : Version) (value : Bytes) (hbound : compare w.nextBound w.upper = .lt)
    (hseek : w.seek = some (.ok (r.key, value))) (hpol : claimPolarityOfValue value = .ok .assert)
    (hvalid : ¬ w.asOf.valid < r.valid) (hsys : ¬ w.asOf.sys < r.sys) (hfact : r.fact.Shallow) :
    w.turn = some (some (extendTupleFromBitemporalV
      ((r.fact ++ [.validity (slot r.valid), .validity (slot r.sys)] : Tuple).map
        Subtype.val) value), w.advance r.key (r.splice terminalValidity terminalValidity)) := by
  rw [turn_of_seek hbound hseek, visit, hpol]
  simp only [checkKeyForBitemporal_key, if_neg hvalid, if_neg hsys,
    r.decodeTupleFromKey_key_eq_ok hfact]
  rfl

lemma one_below : (1 : UInt64).toNat < 2 ^ 48 := by decide

/-- The versions of two facts at one instant. -/
def markedFact (mark : Bool) : Version :=
  ⟨⟨1, one_below⟩, [⟨.bool mark, .bool mark⟩], 10, 1, .assert, []⟩

/-- Two facts, the first with the given value, the second with an empty payload. -/
def twoFacts (first : Bytes) : ByteMap where
  entries := [((markedFact false).key, first), ((markedFact true).key, [0])]
  ascending := by
    have hlt : compare (markedFact false).key (markedFact true).key = .lt := by decide +kernel
    exact List.pairwise_pair.mpr hlt

lemma shallow_markedFact (mark : Bool) : (markedFact mark).fact.Shallow := by
  simp [Tuple.Shallow, markedFact, RawValue.depth]

end SkipWalk

end Kyzo
