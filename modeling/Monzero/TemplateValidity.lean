import Monzero.FeeOrder

/-!
Block templates. `fill_block_template` walks the pool in fee order and looks at native
inputs only, and not even at these when it has a cached result. The transactions it
chooses are stored, and distinct because the order by fee has none twice; their asset
payloads can be applied in template order when the pool is sound. A pool is not kept sound
by the code alone: an asset transaction stays in the pool, and is chosen, after a block has
issued the same asset.
-/
namespace Monzero.TemplateValidity

open Primitives AssetWire AssetRuns IndependentPayloads TxExtra TxMemoryPool PoolRows PoolMirror
  PoolAssets Blockchain NodeRuns FeeOrder Runs ToyCrypto ToyNode List

/-- The asset payloads of the transactions of a template, in its order, with the carrier
hashes a block applies them with. -/
def templatePayloads (E : Env) (version : ℕ) (table : PoolTable) (ids : List Hash) :
    List (AssetTransactionPayload Key × Hash) :=
  ids.filterMap fun id => (table.get id).bind fun e =>
    match E.payload version e.tx with
    | .ok (some p) => some (p, p.carrierPrefixHash)
    | _ => none

variable {E : Env} {db : Db} {ver : ℕ}

/-- What the loop of `fill_block_template` keeps: the chosen ids are stored, and follow each other
in the order of the entries it has visited. -/
structure Chosen (table : PoolTable) (visited : List Hash) (s : Template) : Prop where
  within : Within s.table table
  stored : ∀ id ∈ s.txHashes, ∃ e, table.get id = some e
  order : s.txHashes.Sublist visited

theorem Chosen.pass {tab : PoolTable} {visited : List Hash} {s s' : Template} {id : Hash}
    (h : Chosen tab visited s) (hwithin : Within s'.table tab) (hids : s'.txHashes = s.txHashes) :
    Chosen tab (visited ++ [id]) s' :=
  ⟨hwithin, hids ▸ h.stored, hids ▸ h.order.trans (sublist_append_left ..)⟩

theorem chosen_step (E : Env) (db : Db) (mine : Bool) (ver med agc : ℕ) {tab : PoolTable}
    {visited : List Hash} {s : Template} (ent : FeeEntry) (h : Chosen tab visited s) :
    Chosen tab (visited ++ [ent.id]) (templateStep E db mine ver med agc s ent) := by
  have hsame : ∀ s', s'.table = s.table → s'.txHashes = s.txHashes →
      Chosen tab (visited ++ [ent.id]) s' :=
    fun s' htab => h.pass (htab ▸ h.within)
  unfold templateStep
  split
  · exact hsame _ rfl rfl
  · split
    · exact hsame _ rfl rfl
    · rename_i e hget
      split
      · exact hsame _ rfl rfl
      · split
        · exact hsame _ rfl rfl
        · split
          · exact hsame _ rfl rfl
          · have hwithin : ∀ info : TxMeta, Within (s.table.update e.id fun _ => info) tab :=
              fun info => (within_update _ _ _).trans h.within
            dsimp only
            split
            · exact h.pass (hwithin _) rfl
            · split
              · exact h.pass (hwithin _) rfl
              · refine ⟨hwithin _, ?_, h.order.append (Sublist.refl _)⟩
                rw [forall_mem_append, forall_mem_singleton]
                obtain ⟨hmem, hid⟩ := PoolTable.get_eq_some_iff.mp hget
                obtain ⟨e₀, hmem₀, hid₀, -⟩ := h.within e hmem
                exact ⟨h.stored, e₀, PoolTable.get_eq_some_iff.mpr ⟨hmem₀, hid₀.trans hid⟩⟩

theorem chosen_fold (E : Env) (db : Db) (mine : Bool) (ver med agc : ℕ) (tab : PoolTable)
    (es : List FeeEntry) (visited : List Hash) (s : Template) (h : Chosen tab visited s) :
    Chosen tab (visited ++ es.map FeeEntry.id)
      (es.foldl (templateStep E db mine ver med agc) s) := by
  induction es generalizing visited s with
  | nil => simpa using h
  | cons ent rest ih =>
    have hnext := ih _ _ (chosen_step E db mine ver med agc ent h)
    rwa [append_assoc, singleton_append] at hnext

theorem template_chosen {pool : TxPool} {cache : InputCache} {med agc : ℕ} {tmpl : Template}
    (h : fillBlockTemplate E db pool cache med agc ver = some tmpl) :
    Chosen pool.table (feeIds pool) tmpl := by
  unfold fillBlockTemplate at h
  split at h
  · cases h
  · cases h
    exact chosen_fold E db _ ver med agc pool.table pool.byFee [] _
      ⟨Within.refl _, by simp, nil_sublist _⟩

theorem payloads_apply {node : Node} {ids : List Hash}
    (hact : hfVersionMonzeroAssets ≤ ver) (h : Sound E node) (hnd : ids.Nodup) :
    (applyAssetPayloads E.C E.assetNetwork node.db.height
      (templatePayloads E ver node.pool.table ids) node.db.assets).1 = .ok () := by
  have hfrom : ∀ id q, ((node.pool.table.get id).bind fun e =>
      match E.payload ver e.tx with
      | .ok (some p) => some (p, p.carrierPrefixHash)
      | _ => none) = some q →
        ∃ e ∈ node.pool.table.rows, e.id = id ∧ envelope E e.tx = .ok (some q.1) ∧
          q = (q.1, q.1.carrierPrefixHash) := by
    intro id q hq
    obtain ⟨e, hget, hmatch⟩ := Option.bind_eq_some_iff.mp hq
    obtain ⟨he, hid⟩ := PoolTable.get_eq_some_iff.mp hget
    rw [payload_of_active E e.tx hact] at hmatch
    split at hmatch
    · rename_i p hp
      cases hmatch
      exact ⟨e, he, hid, hp, rfl⟩
    · cases hmatch
  have hmap : templatePayloads E ver node.pool.table ids =
      ((templatePayloads E ver node.pool.table ids).map Prod.fst).map
        fun p => (p, p.carrierPrefixHash) := by
    rw [map_map]
    refine (map_id _).symm.trans (map_congr_left fun q hq => ?_)
    obtain ⟨id, -, hq⟩ := mem_filterMap.mp hq
    obtain ⟨-, -, -, -, hpair⟩ := hfrom id q hq
    exact hpair
  rw [hmap]
  refine applyAssetPayloads_of_apart E.C E.assetNetwork node.db.height _ node.db.assets
    (loadable_of_reloadable h.chain) ?_ ?_
  · intro p hp
    obtain ⟨q, hq, rfl⟩ := mem_map.mp hp
    obtain ⟨id, -, hq⟩ := mem_filterMap.mp hq
    obtain ⟨e, he, -, henv, -⟩ := hfrom id q hq
    exact h.pool.pending e he q.1 henv
  · rw [pairwise_map]
    refine List.Pairwise.filterMap _ ?_ hnd
    intro a b hab q hq q' hq'
    obtain ⟨e, he, rfl, henv, -⟩ := hfrom a q hq
    obtain ⟨e', he', rfl, henv', -⟩ := hfrom b q' hq'
    exact h.pool.apart e he e' he' hab q.1 q'.1 henv henv'

/-- In every run from a node without assets and with an empty pool, with assets active and all
steps independent of the pooled asset transactions: whatever is cached, the transactions of every
template of the reached state carry well formed envelopes, and their payloads apply in template
order. -/
theorem template_applies (E : Env) (start node : Node) (events : List NodeEvent)
    (hassets : start.db.assets = .empty) (hpool : start.pool.table.rows = [])
    (hfees : start.pool.byFee = [])
    (run : Run (fun s e s' => ActiveStep E s e s' ∧ Independent E s e) start events node)
    (hactive : Active E node.db) (cache : InputCache) (medianWeight generated : ℕ)
    (template : Template)
    (h : fillBlockTemplate E node.db node.pool cache medianWeight generated
      (E.hardFork node.db.blocks) = some template) :
    (∀ id ∈ template.txHashes, ∃ e payload, node.pool.table.get id = some e ∧
      E.payload (E.hardFork node.db.blocks) e.tx = .ok payload) ∧
    (applyAssetPayloads E.C E.assetNetwork node.db.height (templatePayloads E
      (E.hardFork node.db.blocks) node.pool.table template.txHashes) node.db.assets).1 =
        .ok () := by
  have hsound := sound_run E start node events run (sound_start E start hassets hpool)
  have honce : (feeIds node.pool).Nodup :=
    feeIds_nodup_run (fun s e s' hs => hs.1.step) run hfees
  have hchosen := template_chosen h
  refine ⟨?_, payloads_apply hactive.1 hsound (honce.sublist hchosen.order)⟩
  intro id hid
  obtain ⟨e, hget⟩ := hchosen.stored id hid
  obtain ⟨payload, hpayload⟩ :=
    hsound.pool.parsed e (PoolTable.get_eq_some_iff.mp hget).1
  rw [← payload_of_active E e.tx hactive.1] at hpayload
  exact ⟨e, payload, hget, hpayload⟩

theorem toy_active : Active toyEnv db := ⟨le_refl _, le_refl _⟩

theorem pooled_step : ActiveStep toyEnv startNode
    (.add firstIssue .fluff true hfVersionMonzeroAssets clock) pooledNode :=
  ⟨.add startNode firstIssue .fluff true hfVersionMonzeroAssets clock, toy_active, toy_active⟩

theorem firstIssue_envelope :
    envelope toyEnv firstIssue = .ok (some (issuance 1 sampleCollection)) := by
  decide +kernel

private theorem first_clean : Clean toyEnv (stored startNode.pool.table ++
    offered toyEnv [firstIssue]) := by
  have hone : ∀ a ∈ stored startNode.pool.table ++ offered toyEnv [firstIssue],
      a = (toyEnv.H.txHash firstIssue, firstIssue) := fun a ha => mem_singleton.mp ha
  refine ⟨?_, ?_⟩
  · intro a ha
    rw [hone a ha]
    have hpay : ∀ p, envelope toyEnv firstIssue = .ok (some p) →
        p = issuance 1 sampleCollection := by
      intro p hp
      simpa using hp.symm.trans firstIssue_envelope
    refine ⟨?_, ?_⟩
    · intro p i hp hi
      rw [hpay p hp] at hi
      cases hi
      rfl
    · intro p hp
      rw [hpay p hp]
      rintro _ ⟨e, he, rfl⟩ _ ⟨e', he', rfl⟩ -
      obtain rfl := mem_singleton.mp he
      obtain rfl := mem_singleton.mp he'
      rfl
  · intro a ha b hb hne
    rw [hone a ha, hone b hb] at hne
    exact absurd rfl hne

/-- The check of a transaction that `add_tx` has left in the cache. -/
def cachedCheck (tx : Transaction) : InputCache := [(toyHashes.txHash tx, toyInputs tx)]

/-- The template of a node with one pooled issuance, whose inputs it does not look at again,
contains it, and it applies. -/
theorem template_applies_sample :
    ∃ template, fillBlockTemplate toyEnv pooledNode.db pooledNode.pool (cachedCheck firstIssue) 1000
        0 hfVersionMonzeroAssets = some template ∧
      template.txHashes = [toyHashes.txHash firstIssue] ∧
      (applyAssetPayloads toy .mainnet 1 (templatePayloads toyEnv hfVersionMonzeroAssets
        pooledNode.pool.table template.txHashes) pooledNode.db.assets).1 = .ok () := by
  have hids : (fillBlockTemplate toyEnv pooledNode.db pooledNode.pool (cachedCheck firstIssue) 1000
      0 hfVersionMonzeroAssets).map Template.txHashes = some [toyHashes.txHash firstIssue] := by
    decide +kernel
  obtain ⟨template, htemplate, hchosen⟩ := Option.map_eq_some_iff.mp hids
  exact ⟨template, htemplate, hchosen, (template_applies toyEnv startNode pooledNode _ rfl rfl rfl
    (.cons ⟨pooled_step, first_clean⟩ (.nil _)) toy_active _ 1000 0 template htemplate).2⟩

/-- The pooled issuance stays in the pool when a block, which clears the cache, issues the same
asset; the next template contains it, and its payload cannot be applied. -/
theorem template_with_issued_asset :
    ∃ node template, Run (ActiveStep toyEnv) startNode
        [.add firstIssue .fluff true hfVersionMonzeroAssets clock,
          .block (blockOf [secondIssue]) [secondIssue] clock] node ∧
      fillBlockTemplate toyEnv node.db node.pool [] 1000 0 hfVersionMonzeroAssets = some template ∧
      template.txHashes = [toyHashes.txHash firstIssue] ∧
      (applyAssetPayloads toy .mainnet node.db.height (templatePayloads toyEnv
        hfVersionMonzeroAssets node.pool.table template.txHashes) node.db.assets).1 =
          .error (.rejected "confidential issuance duplicates an existing asset") := by
  have hfacts : (handleBlockToMainChain toyEnv clock pooledNode (blockOf [secondIssue])
        [secondIssue]).1 = .ok () ∧
      (fillBlockTemplate toyEnv (withBlock pooledNode [secondIssue] [secondIssue]).db
        (withBlock pooledNode [secondIssue] [secondIssue]).pool [] 1000 0
        hfVersionMonzeroAssets).map Template.txHashes = some [toyHashes.txHash firstIssue] ∧
      (applyAssetPayloads toy .mainnet (withBlock pooledNode [secondIssue] [secondIssue]).db.height
        (templatePayloads toyEnv hfVersionMonzeroAssets
          (withBlock pooledNode [secondIssue] [secondIssue]).pool.table
          [toyHashes.txHash firstIssue])
        (withBlock pooledNode [secondIssue] [secondIssue]).db.assets).1 =
          .error (.rejected "confidential issuance duplicates an existing asset") := by
    decide +kernel
  obtain ⟨hresult, hids, hfails⟩ := hfacts
  have haccepted := withBlock_result hresult
  obtain ⟨template, htemplate, hchosen⟩ := Option.map_eq_some_iff.mp hids
  refine ⟨withBlock pooledNode [secondIssue] [secondIssue], template, .cons pooled_step (.cons
    ⟨.block pooledNode _ _ _ clock haccepted, toy_active, toy_active⟩ (.nil _)), htemplate,
    hchosen, ?_⟩
  rw [hchosen]
  exact hfails

end Monzero.TemplateValidity
