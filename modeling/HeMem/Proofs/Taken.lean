import HeMem.Proofs.Mmap

/-!
# Which free page an allocation takes

Without a hint an allocation takes the page at the back of DRAM free, or else the one at the back of
NVM free, and leaves the other free pages in their order.
-/

namespace HeMem

open Hoare Function

variable {cfg : Config} {A : Allow} {s : State} {p : PageId} {a : UInt64}

section Taken

/-- What `pebs_allocate_page` does with a page it has taken off a free list leaves the free lists
alone. -/
theorem give_freePages {t : State} {d : Bool} {fails fails' : Abort} (hw : t.fifo.Wf)
    (hp : t.fifo.listOf p = none) : Sat (do
      check ((← getPage p).inDram = d) fails
      check ((← getPage p).present = false) fails'
      modifyPage p ({ · with present := true })
      onFifo (enqueueFifo (coldList d) p)
      return p) (fun r t' => r = p ∧ t'.freePages = t.freePages) (fun _ => True) t := by
  simp only [getPage, modifyPage, bind_assoc, sat_bind, sat_get, sat_pure, sat_modify, sat_check]
  refine ⟨fun _ => ⟨fun _ => ?_, fun _ => trivial⟩, fun _ => trivial⟩
  obtain ⟨h, he, -, -⟩ := hw.enqueue (q := coldList d) hp
  refine (sat_onFifo (by exact he)).2 ⟨trivial, ?_⟩
  have hc := hw.contents_enqueue hp he
  cases d <;> simp [State.freePages, hc, coldList]

theorem pebsAllocatePage_takes (hg : s.Good) : Sat pebsAllocatePage
    (fun p s' => s.freePages = p :: s'.freePages) (fun _ => True) s := by
  unfold pebsAllocatePage
  rcases hg.fifo.dequeue .dramFree with ⟨he, hc, -⟩ | ⟨p, h, he, hw, hc, hp, hl, ho⟩
  · rw [sat_bind, sat_onFifo he]
    dsimp only
    rcases hg.fifo.dequeue .nvmFree with ⟨he', -, -⟩ | ⟨p, h, he', hw, hc', hp, hl, ho⟩
    · rw [sat_bind, sat_onFifo he']
      trivial
    · rw [sat_bind, sat_onFifo he']
      refine (give_freePages (d := false) hw (by simp [hl])).post fun r t ⟨hr, ht⟩ => ?_
      rw [hr, ht]
      simp [State.freePages, ho .dramFree (by simp), hc, hc']
  · rw [sat_bind, sat_onFifo he]
    refine (give_freePages (d := true) hw (by simp [hl])).post fun r t ⟨hr, ht⟩ => ?_
    rw [hr, ht]
    simp [State.freePages, ho .nvmFree (by simp), hc]

/-- The policy tracks no page. -/
theorem Fails.ne_addPage {v : View} {e : Abort} (h : Fails cfg v e) : e ≠ .addPage := by
  cases h with
  | exchange up hl hn he => cases he <;> nofun
  | _ => grind

/-- Without a hint, populating a page takes the next free page, and maps and tracks it. -/
theorem populatePage_takes (hg : s.Good) (ht : s.userHintTier ≠ 0) : Sat (populatePage cfg a)
    (fun r s' => s'.Good ∧ s'.userHintTier ≠ 0 ∧ ∃ p dram, s.freePages = p :: s'.freePages ∧
      Free s.view p dram ∧ a ≠ 0 ∧ a % hugepageSize = 0 ∧ s.pages a = none ∧
      r = ptToPagesize (s.page p).pt ∧
      s'.view = (s.view.alloc p (coldList dram) (s.page p).enforced).populate p a)
    (fun e => e = .addPage → s.pages a ≠ none) s := by
  have hspec : Sat pebsAllocatePage _ (Fails cfg s.view) s := pebsAllocatePage_spec.at hg rfl
  unfold populatePage pebsPagefault
  rw [sat_bind, sat_bind, sat_get, sat_ite]
  refine ⟨fun h => absurd h ht, fun _ => ?_⟩
  refine ((hspec.and (pebsAllocatePage_takes hg)).and (pebsAllocatePage_tier ht)).mono
    (fun p s₁ ⟨⟨⟨hg₁, dram, hf, hv₁⟩, hfree⟩, ht₁⟩ => ?_) fun e he ha => ?_
  swap
  · exact absurd ha he.ne_addPage
  refine ((mapPage_spec.at hg₁ rfl).and mapPage_frame).mono
    (fun r s₂ ⟨⟨hg₂, ha, hal, hn, hr, hv₂⟩, hfifo, ht₂⟩ => ?_) fun e he ha => ?_
  swap
  · have hn := he ha
    rw [hv₁] at hn
    exact hn
  rw [hv₁] at hn hr hv₂
  refine ⟨hg₂, ht₂ ▸ ht₁, p, dram, ?_, hf, ha, hal, hn, ?_, hv₂⟩
  · rw [hfree]
    simp only [State.freePages, hfifo]
  · rw [hr]
    simp [View.alloc]
    rfl

end Taken

end HeMem
