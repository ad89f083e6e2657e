import XPath.NodeSet.Workspace
import XPath.Proofs.Enumeration.Follows
import XPath.Proofs.NodeSet.Coherence

/-!
# Sets under names

A question may materialise an intent, and with it the sets that the intent combines. Calls on a
workspace never make a set whose flags lie (`Workspace.Reachable.formed`), and a set that can be listed
answers every question as its list does, whatever was asked before (`Workspace.coherent_run`).
-/

namespace XPath

variable {F : Forest} {h : Host} {s t : NodeSet} {i : Intent} {x : Extent} {en : Enumeration}
  {ns : List Node} {w : Workspace}

/-! ## Materialised sets -/

namespace NodeSet

def listMerged (F : Forest) (op : SetOperator) (a b : NodeSet) : Except Error Enumeration := do
  (← a.enumerate F).merge F op (← b.enumerate F)

/-- What a set may be by the time it is asked: it and the sets that it combines may have been
materialised. -/
inductive Becomes (h : Host) : NodeSet → NodeSet → Prop
  | refl (s : NodeSet) : Becomes h s s
  | combined {a a' b b' : NodeSet} {op : SetOperator} {i : Intent} (unfixed : i.fixed = false)
      (listing : i.listing = listMerged h.forest op a b)
      (leftFormed : a.Formed h) (rightFormed : b.Formed h)
      (left : Becomes h a a') (right : Becomes h b b') :
      Becomes h (.intent i) (.intent { i with listing := listMerged h.forest op a' b' })
  | fixed {s : NodeSet} {i : Intent} {x : Extent} (before : Becomes h s (.intent i))
      (fix : i.fix h.forest = .ok x) : Becomes h s (.intent { i with fixed := true })

theorem sorted_of_enumerate (hen : s.enumerate F = .ok en) : en.sorted = true := by
  have hfix {i : Intent} (hen : (do return (← i.fix F).enumerate) = Except.ok en) :
      en.sorted = true := by
    simp only [Intent.fix, bind_eq_ok, pure_eq_ok] at hen
    obtain ⟨_, ⟨raw, -, y, -, rfl⟩, rfl⟩ := hen
    exact Extent.sorted_sort
  cases s with
  | empty | singleton =>
      cases hen
      rfl
  | extent x =>
      cases hen
      exact Extent.sorted_sort
  | intent i =>
      rw [enumerate, Intent.enumerate] at hen
      split at hen
      · exact hfix hen
      · obtain ⟨raw, -, hen⟩ := bind_eq_ok.mp hen
        split at hen
        · cases hen
          assumption
        · exact hfix hen

theorem enumerate_listMerged {a b : NodeSet} {op : SetOperator} (hi : i.fixed = false)
    (hlisting : i.listing = listMerged F op a b) :
    (intent i).enumerate F = listMerged F op a b := by
  have hcombine : (combine F op a b).enumerate F = _ := enumerate_combine
  rw [combine, enumerate, Intent.enumerate, Intent.fix] at hcombine
  rw [enumerate, Intent.enumerate, Intent.fix, hi, hlisting]
  exact hcombine

/-- A materialised intent is read as before, without what was behind its end. -/
theorem follows_fix (hen : (NodeSet.intent i).enumerate F = .ok en) (hx : i.fix F = .ok x) :
    Follows en.readings x.enumerate.readings := by
  have hnodes : (NodeSet.intent i).toList F = .ok x.nodes := by
    rw [Intent.toList_eq, hx]
    rfl
  rw [toList, hen, ok_bind] at hnodes
  rw [Enumeration.readings, collect_eq_ok.mp hnodes]
  exact .append _ (.cons none (.beyond _))

/-- Materialising leaves a list of nodes as it is, up to the first error. -/
theorem Becomes.enumerate (hst : s.Becomes h t) (hen : s.enumerate h.forest = .ok en) :
    ∃ en', t.enumerate h.forest = .ok en' ∧ Follows en.readings en'.readings := by
  induction hst generalizing en with
  | refl s => exact ⟨en, hen, .refl _⟩
  | @combined a a' b b' op i unfixed listing _ _ _ _ ihleft ihright =>
      rw [enumerate_listMerged unfixed listing, listMerged] at hen
      obtain ⟨l, hl, hen⟩ := bind_eq_ok.mp hen
      obtain ⟨r, hr, hen⟩ := bind_eq_ok.mp hen
      obtain ⟨l', hl', hleft⟩ := ihleft hl
      obtain ⟨r', hr', hright⟩ := ihright hr
      rw [merge_eq (sorted_of_enumerate hl) (sorted_of_enumerate hr)] at hen
      cases hen
      have hagain := enumerate_listMerged (F := h.forest)
        (i := { i with listing := listMerged h.forest op a' b' }) unfixed rfl
      rw [hagain, listMerged, hl', hr', ok_bind, ok_bind,
        merge_eq (sorted_of_enumerate hl') (sorted_of_enumerate hr')]
      exact ⟨_, rfl, (hleft.merge hright).readings rfl rfl rfl rfl⟩
  | @fixed s i x _ fix ih =>
      obtain ⟨en', hen', hfollows⟩ := ih hen
      refine ⟨x.enumerate, ?_, hfollows.trans (follows_fix hen' fix)⟩
      rw [NodeSet.enumerate, Intent.enumerate, if_pos rfl]
      show (do return (← i.fix h.forest).enumerate) = _
      rw [fix]
      rfl

theorem Becomes.toList (hst : s.Becomes h t) (hns : s.toList h.forest = .ok ns) :
    t.toList h.forest = .ok ns := by
  obtain ⟨en, hen, hnodes⟩ := bind_eq_ok.mp hns
  obtain ⟨en', hen', hfollows⟩ := hst.enumerate hen
  rw [NodeSet.toList, hen']
  exact hfollows.nodes hnodes

theorem Becomes.admits (W : h.forest.WellFormed) (hh : h.Truthful) (hst : s.Becomes h t)
    (hs : (Policy.truthful h.forest).AdmitsSet s) : (Policy.truthful h.forest).AdmitsSet t := by
  have hP := hh.closed W
  induction hst with
  | refl => exact hs
  | combined _ _ leftFormed rightFormed _ _ ihleft ihright =>
      have hleft := ihleft (leftFormed.admits W hh)
      have hright := ihright (rightFormed.admits W hh)
      exact (hleft.enumerate hP).bind fun _ _ hl => (hright.enumerate hP).bind fun _ _ hr =>
        hl.merge hP hr
  | fixed _ _ ih => exact ih hs

end NodeSet

/-! ## Sets under names -/

def Slot.Formed (h : Host) : Slot → Prop
  | .set s => s.Formed h
  | .stored x => (NodeSet.extent x).Formed h

namespace Workspace

inductive Reachable (h : Host) : Workspace → Prop
  | start (nextIdentity : Nat) : Reachable h (.start nextIdentity)
  | put {w : Workspace} {s : NodeSet} (reached : Reachable h w) (name : String)
      (formed : s.Formed h) : Reachable h (w.put name s)
  | store {w : Workspace} {x : Extent} (reached : Reachable h w) (name : String)
      (formed : (NodeSet.extent x).Formed h) : Reachable h (w.store name x)
  | combine {w : Workspace} (reached : Reachable h w) (name : String) (op : SetOperator)
      (a b : String) : Reachable h (w.combine h.forest name op (w.set a) (w.set b))
  | asked {w : Workspace} (reached : Reachable h w) (access : Access) (name : String) :
      Reachable h (w.asked h.forest access (w.set name))

def run (F : Forest) (w : Workspace) (calls : List (Access × String)) : Workspace :=
  calls.foldl (fun w call => w.asked F call.1 (w.set call.2)) w

theorem formed_set (hslots : ∀ entry ∈ w.slots, entry.2.Formed h) (name : String) :
    (w.set name).Formed h := by
  have hslot (slot : Slot) (hfound : w.slot? name = some slot) : slot.Formed h := by
    obtain ⟨before, after, hsplit, -⟩ := List.lookup_eq_some_iff.mp hfound
    exact hslots (name, slot) (by simp [hsplit])
  unfold set
  split
  · rename_i hfound
    exact .marked (hslot _ hfound)
  · rename_i hfound
    exact hslot _ hfound
  · rename_i hfound
    exact hslot _ hfound
  · exact .empty

theorem formed_put {name : String} (hslots : ∀ entry ∈ w.slots, entry.2.Formed h)
    (hs : s.Formed h) : ∀ entry ∈ (w.put name s).slots, entry.2.Formed h := by
  unfold put
  split
  · split
    · exact List.forall_mem_cons.mpr ⟨hs, hslots⟩
    · exact List.forall_mem_cons.mpr ⟨.marked hs, hslots⟩
  · exact List.forall_mem_cons.mpr ⟨hs, hslots⟩

/-- No call leaves a set behind whose flags do not tell the truth. -/
theorem Reachable.formed (hw : w.Reachable h) : ∀ entry ∈ w.slots, entry.2.Formed h := by
  induction hw with
  | start k => exact fun entry hentry => absurd hentry List.not_mem_nil
  | put _ name formed ih => exact formed_put ih formed
  | store _ name formed ih => exact List.forall_mem_cons.mpr ⟨formed, ih⟩
  | combine _ name op a b ih =>
      exact formed_put ih (.combined (formed_set ih a) (formed_set ih b))
  | asked _ access name ih => exact ih

/-- A set lists the same nodes whichever intents were materialised. -/
theorem toList_set_congr {w' : Workspace} (hslots : w'.slots = w.slots) (name : String) :
    (w'.set name).toList F = (w.set name).toList F := by
  unfold set slot?
  rw [hslots]
  split
  · rw [Intent.toList_eq, Intent.toList_eq]
    rfl
  · rfl
  · rfl
  · rfl

theorem slots_run (calls : List (Access × String)) : (w.run F calls).slots = w.slots := by
  induction calls generalizing w with
  | nil => rfl
  | cons call calls ih => exact ih

theorem Reachable.run (hw : w.Reachable h) (calls : List (Access × String)) :
    (w.run h.forest calls).Reachable h := by
  induction calls generalizing w with
  | nil => exact hw
  | cons call calls ih => exact ih (hw.asked call.1 call.2)

/-- Whatever was asked before, and whichever of the sets that it combines were materialised, a set that
can be listed answers every question as its list does. -/
theorem coherent_run {name : String} (W : h.forest.WellFormed) (hh : h.Truthful)
    (hw : w.Reachable h) (hns : (w.set name).toList h.forest = .ok ns)
    (calls : List (Access × String)) (ht : ((w.run h.forest calls).set name).Becomes h t) :
    t.Coherent h.forest ns := by
  have hformed := formed_set (hw.run calls).formed name
  have hlist := ht.toList ((toList_set_congr (slots_run calls) name).trans hns)
  have hadmits := ht.admits W hh (hformed.admits W hh)
  exact NodeSet.coherent_of_admits W hadmits hlist

/-- `ancestor-or-self::node()` from `x`, which comes in reverse order. -/
def ancestors : Expr :=
  .path (.literal (.nodeSet (.singleton ⟨0, 2⟩))) .ancestorOrSelf .anyNode []

def ancestorsSpace : Workspace :=
  (start 0).put "a" (.intent
    ⟨ancestors.display, ancestors.enumerate Expr.nestedHost .standalone, false, none⟩)

theorem coherent_run_ancestors :
    ((ancestorsSpace.run .nested [(.order, "a"), (.nodes, "a")]).set "a").Coherent .nested
      [⟨0, 0⟩, ⟨0, 1⟩, ⟨0, 2⟩] := by
  have hx : (Policy.truthful .nested).AdmitsSet (.singleton ⟨0, 2⟩) :=
    Policy.admits_singleton (Expr.truthful_nestedHost.closed Forest.wellFormed_nested)
      (show Forest.Has .nested _ by decide)
  have hadmitted : (Policy.truthful .nested).AdmitsExpr ancestors :=
    Policy.admits_path.mpr ⟨Policy.admits_literal.mpr hx, trivial⟩
  have hreached : ancestorsSpace.Reachable Expr.nestedHost :=
    .put (.start 0) "a" (.intent hadmitted rfl)
  exact coherent_run Forest.wellFormed_nested Expr.truthful_nestedHost hreached (by cbv) _ (.refl _)

end Workspace

end XPath
