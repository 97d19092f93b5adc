import Monzero.Activation

/-!
Transactions that have nothing to do with assets. From version 17 on the pool and the chain
parse the whole extra field of every transaction to look for an envelope. An extra without the
byte of the envelope's tag has none, and such a transaction is treated as before, provided
that its extra parses at all; the earlier rules did not ask for that.
-/
namespace Monzero.PlainTransactions

open Primitives TxExtra TxExtraCodec TxMemoryPool Blockchain Activation ToyNode

/-- The rules of version 17 do to a transaction what those of version 16 did: both stages pass
it without a payload, what `add_tx` checks before the inputs comes out the same for it, and it
contributes nothing to what a block writes. -/
structure Untouched (E : Env) (db : Db) (pool : TxPool) (tx : Transaction) (id : Hash) :
    Prop where
  stage : assetStage E db pool.table tx id 17 = .ok none
  block : blockPayload E 17 tx = .ok none
  same : blockPayload E 17 tx = blockPayload E 16 tx
  admitted : ∀ weight relay nicVersion,
    E.nonInputConsensus tx 16 = true → E.nonInputConsensus tx 17 = true →
    admission E db pool tx id weight relay 17 nicVersion =
      admission E db pool tx id weight relay 16 nicVersion
  tables : ∀ (before after : List Taken) (t : Taken), blockPayload E 17 t.tx = .ok t.payload →
    t.tx = tx → assetPayloads (before ++ t :: after) = assetPayloads (before ++ after)

theorem payload_of_no_tag (E : Env) (ver : ℕ) {tx : Transaction} {fs : List TxExtraField}
    (hbyte : 0x7A ∉ tx.extra) (hprs : parseTxExtra tx.extra = some fs) :
    E.payload ver tx = .ok none := by
  have hnone := envelopes_of_not_mem (parsed_of_readFields _ tx.extra fs hprs) hbyte
  simp only [Env.payload, parseNativeAssetTransaction, getMonzeroAssetTxExtra, hprs, hnone]
  rfl

/-- A transaction whose extra has no byte 0x7a is left alone by the asset rules exactly when
its extra parses. -/
theorem plain_untouched_iff (E : Env) (db : Db) (pool : TxPool) (tx : Transaction) (id : Hash)
    (hbyte : 0x7A ∉ tx.extra) :
    Untouched E db pool tx id ↔ (parseTxExtra tx.extra).isSome = true := by
  constructor
  · intro h
    by_contra hnone
    rw [Bool.not_eq_true, Option.isSome_eq_false_iff, Option.isNone_iff_eq_none] at hnone
    have hblock := h.block
    simp only [blockPayload, hfVersionMonzeroAssets, Env.payload, parseNativeAssetTransaction,
      getMonzeroAssetTxExtra, hnone] at hblock
    cases hblock
  · intro hsome
    obtain ⟨fields, hparse⟩ := Option.isSome_iff_exists.mp hsome
    have hpayload := payload_of_no_tag E 17 hbyte hparse
    have hstage : assetStage E db pool.table tx id 17 = .ok none := by
      unfold assetStage
      rw [if_neg (by decide), hpayload]
      rfl
    have hblock : blockPayload E 17 tx = .ok none := hpayload
    refine ⟨hstage, hblock, hblock, ?_, ?_⟩
    · intro weight relay nicVersion hnative hnative'
      have hbefore : assetStage E db pool.table tx id 16 = .ok none := rfl
      simp [admission, hstage, hbefore, hnative, hnative']
    · intro before after t ht htx
      rw [htx, hblock] at ht
      have hnone : t.payload = none := (Except.ok.inj ht).symm
      simp [assetPayloads, hnone]

theorem plain_untouched_iff_sample :
    Untouched toyEnv startNode.db emptyPool (nativeTx 1 [0x02, 0x01, 0x07]) nullHash :=
  (plain_untouched_iff toyEnv startNode.db emptyPool _ nullHash (by decide)).mpr (by decide)

/-- A transaction whose extra is one unknown tag passes at version 16 and is refused at version
17 by the pool and in a block. -/
theorem plain_refused_at_activation :
    0x7A ∉ (nativeTx 1 [0x05]).extra ∧
      (addTxOf earlyEnv startNode.db startNode.pool (nativeTx 1 [0x05]) .fluff true 16 16 clock).1 =
        .ok true ∧
      (addTxOf toyEnv startNode.db startNode.pool (nativeTx 1 [0x05]) .fluff true 17 17 clock).1 =
        .error (.assetEnvelope "failed to parse transaction extra") ∧
      (handleBlockToMainChain earlyEnv clock startNode (blockOf [nativeTx 1 [0x05]])
        [nativeTx 1 [0x05]]).1 = .ok () ∧
      (handleBlockToMainChain toyEnv clock startNode (blockOf [nativeTx 1 [0x05]])
        [nativeTx 1 [0x05]]).1 =
          .error (.assetEnvelope "failed to parse transaction extra") ∧
      ¬Untouched toyEnv startNode.db startNode.pool (nativeTx 1 [0x05]) nullHash := by
  have hfacts : 0x7A ∉ (nativeTx 1 [0x05]).extra ∧
      (addTxOf earlyEnv startNode.db startNode.pool (nativeTx 1 [0x05]) .fluff true 16 16 clock).1 =
        .ok true ∧
      (addTxOf toyEnv startNode.db startNode.pool (nativeTx 1 [0x05]) .fluff true 17 17 clock).1 =
        .error (.assetEnvelope "failed to parse transaction extra") ∧
      (handleBlockToMainChain earlyEnv clock startNode (blockOf [nativeTx 1 [0x05]])
        [nativeTx 1 [0x05]]).1 = .ok () ∧
      (handleBlockToMainChain toyEnv clock startNode (blockOf [nativeTx 1 [0x05]])
        [nativeTx 1 [0x05]]).1 =
          .error (.assetEnvelope "failed to parse transaction extra") := by
    decide +kernel
  obtain ⟨hbyte, hadmitted, hrefused, haccepted, hrejected⟩ := hfacts
  refine ⟨hbyte, hadmitted, hrefused, haccepted, hrejected, fun h => ?_⟩
  have hfails : blockPayload toyEnv 17 (nativeTx 1 [0x05]) =
      .error "failed to parse transaction extra" := rfl
  have hblock := h.block
  rw [hfails] at hblock
  cases hblock

end Monzero.PlainTransactions
