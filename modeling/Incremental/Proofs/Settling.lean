import Incremental.Proofs.Standing

/-!
# Verification comes to an end

In a faithful store whose computed values all yield something, verification meets no endless
walk. Fix a revision `r`: as long as a walk meets values last known to stand at `r` or before,
each handle it comes to is below the one before it under the inputs of `r`. Where it meets a
value known to stand later, the argument starts anew from that later revision.
-/

namespace Incremental

variable {Q K V W : Type} {R : Q × K → Recipe Q K V} {I I' J : Inputs Q K V} {x : Q × K}

theorem CarriesOver.trans (h : CarriesOver R I I' x) (h' : CarriesOver R I' J x) :
    CarriesOver R I J x :=
  ⟨h'.1.trans h.1, fun o ho ↦ h'.2 o (h.2 o ho)⟩

namespace Database

section

variable {db : Database Q K V W} (keys : List Handle) (since : Revision)

/-- A walk ends if each verification does that it comes to. -/
theorem exists_allReads (ok : List Handle → Database Q K V W → Prop)
    (h : ∀ d ds db, ok (d :: ds) db → ∃ fuel fresh db', verify fuel d since db = some (fresh, db') ∧
      (fresh = true → ok ds db')) (hdb : ok keys db) :
    ∃ fuel r, allReads (fun d ↦ verify fuel d since) keys db = some r := by
  induction keys generalizing db with
  | nil => exact ⟨0, _, rfl⟩
  | cons d ds ih =>
      obtain ⟨fuel, fresh, db₁, hverify, hnext⟩ := h d ds db hdb
      cases fresh with
      | false => exact ⟨fuel, _, by rw [allReads, hverify]⟩
      | true =>
          obtain ⟨fuel', r, hrest⟩ := ih (hnext rfl)
          refine ⟨max fuel fuel', r, ?_⟩
          rw [allReads, verify_mono (Nat.le_max_left fuel fuel') hverify]
          exact allReads_mono (fun _ _ _ ↦ verify_mono (Nat.le_max_right fuel fuel')) hrest

end

variable [DecidableEq Q] [BEq K] [LawfulBEq K] {H : Timeline Q K V} {σ : Q × K → Revision}
  {tame : Prop} {now : Revision} {db : Database Q K V W} {key : Handle}

theorem exists_verify_of_acc (ht : tame) {r : Revision} (hr : r ≤ now) {x : Q × K}
    (hx : Acc (ReadBy R (H r)) x) (asOf : Revision) (hnow : db.revision = now)
    (hdb : Faithful R H σ tame now db.store) (hkey : db.store.named? key = some x) :
    ∃ fuel fresh db', verify fuel key asOf db = some (fresh, db') := by
  induction hn : now - r using Nat.strongRecOn generalizing r x asOf db key with
  | ind n ihr =>
      have hacc : Acc (Below R (H r)) x := acc_transGen_iff.mpr hx
      clear hx
      induction hacc generalizing asOf db key with
      | intro x _ ihx =>
          cases hglance : glance db.revision asOf (db.store.memo? key) with
          | settled fresh => exact ⟨1, _, _, by rw [verify, hglance]⟩
          | undecided since reads =>
              obtain ⟨v, c, hm, _, hne⟩ := glance_undecided hglance
              rw [hnow] at hne
              obtain ⟨_, hself, hcw, hle, _⟩ := hdb.derived hkey hm
              have hkept := hdb.kept key x v c since reads hkey hm
              by_cases hsince : since ≤ r
              · have hHr : H r x = none := by
                  rw [hdb.agree hr (Nat.le_trans hself (Nat.le_trans hcw hsince))]
                  exact (hdb.derived hkey hm).1
                suffices hwalk : ∃ fuel p, allReads (fun d ↦ verify fuel d since) reads
                    (db.note (.walked key)) = some p by
                  obtain ⟨fuel, p, hwalk⟩ := hwalk
                  refine ⟨fuel + 1, (conclude key asOf p).1, (conclude key asOf p).2, ?_⟩
                  simp only [verify, hglance, hwalk, Option.map_some]
                refine exists_allReads reads since
                  (fun ds db₁ ↦ db.Verifies db₁ ∧ Faithful R H σ tame now db₁.store ∧
                    (∀ d ∈ ds, db.store.Has d) ∧ LeadsUnder R (H since) (H r) db.store x ds)
                  ?_ ⟨.note db _, hdb, (hdb.regular.derived key v c since _ hm).2.2.2,
                    hkept.leads ht (H r) hHr⟩
                rintro d ds db₁ ⟨hverifies, hdb₁, hhas, hleads⟩
                obtain ⟨y, hy⟩ := hhas d List.mem_cons_self
                have hy₁ := hverifies.store.advances.named d y hy
                have hnow₁ := hverifies.revision_eq.trans hnow
                obtain ⟨fuel, fresh, db', hverify⟩ := ihx y (hleads.1 y hy) since hnow₁ hdb₁ hy₁
                obtain ⟨hdb', hverdict⟩ := verify_faithful hverify hnow₁ hdb₁
                refine ⟨fuel, fresh, db', hverify, fun hfresh ↦
                  ⟨hverifies.trans (verify_verifies hverify), hdb',
                    fun e he ↦ hhas e (List.mem_cons_of_mem _ he), hleads.2 fun z hz ↦ ?_⟩⟩
                obtain ⟨m, _, hmc, hstands⟩ := hverdict hfresh y hy₁
                obtain rfl : y = z := Option.some.inj (hy.symm.trans hz)
                have hy' := (hstands (.inl ht)).mono hmc
                exact (hy'.carriesBack fun u hu ↦ hdb.agree hle hu).trans
                  (hy'.carriesOver fun u hu ↦ hdb.agree hr (Nat.le_trans hu hsince)).1
              · have hlt : r < since := Nat.lt_of_not_le hsince
                have hless : now - since < now - r :=
                  Nat.sub_lt_sub_left (Nat.lt_of_lt_of_le hlt hle) hlt
                obtain ⟨o, ho⟩ := hkept.yields ht
                exact ihr (now - since) (hn ▸ hless) hle ho.acc asOf hnow hdb hkey rfl

/-- Where every computed value yields something, retrieval ends. -/
theorem exists_retrieve (ht : tame) {x : Q × K} (hnow : db.revision = now)
    (hdb : Faithful R H σ tame now db.store) (hkey : db.store.named? key = some x) :
    ∃ fuel r, db.retrieve fuel key = some r := by
  unfold retrieve
  cases hm : db.store.memo? key with
  | none => exact ⟨0, _, rfl⟩
  | some m => cases m with
      | input v c => exact ⟨0, _, rfl⟩
      | derived v c w reads =>
          obtain ⟨o, ho⟩ := (hdb.kept key x v c w reads hkey hm).yields ht
          obtain ⟨fuel, fresh, db', hverify⟩ := exists_verify_of_acc ht
            (hdb.derived hkey hm).2.2.2.1 ho.acc w hnow hdb hkey
          exact ⟨fuel, _, by simp only [hverify, Option.map_some]; rfl⟩

end Database

end Incremental
