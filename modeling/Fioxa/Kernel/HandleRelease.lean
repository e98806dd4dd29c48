import Fioxa.Kernel.Handles

/-! # Dropping references

Dropping a reference may close an endpoint, which drops the references in its queue, and so on.
While this goes on, an endpoint exists exactly as long as it has a reference in a table, on a stack,
in a queue or among those still to be dropped (`Dropping`); nothing else happens to the endpoints
than that some are closed (`Shrunk`). The work comes to an end, because every endpoint is closed at
most once. -/

namespace Fioxa

open List Function

namespace Endpoints

open ChannelMessage (values)

variable {n n' : Endpoints} {roots : List KernelValue} {work : List DropWork} {e : Nat}
  {v : KernelValue}

theorem releaseWith_shrunk (fuel : Nat) (roots : List KernelValue) (n : Endpoints)
    (work : List DropWork) : Shrunk n (releaseWith fuel roots n work) := by
  induction fuel generalizing n work with
  | zero => exact .refl n
  | succ fuel ih =>
    match work with
    | [] => exact .refl n
    | .peer e :: work => exact (closePeerOf_shrunk n e).trans (ih _ work)
    | .value v :: work =>
      cases v with
      | channel e =>
        simp only [releaseWith]
        split
        · exact (closeSelf_shrunk n e).trans (ih _ _)
        · exact ih n work
      | message => exact ih n work
      | process => exact ih n work
      | port => exact ih n work
      | interrupt => exact ih n work

theorem release_shrunk (n : Endpoints) (roots values : List KernelValue) :
    Shrunk n (n.release roots values) := releaseWith_shrunk ..

/-! ## Which endpoints exist -/

/-- The endpoints that exist are those that have a reference. -/
structure Dropping (n : Endpoints) (roots : List KernelValue) (work : List DropWork) : Prop where
  net : n.Intact
  alive_iff : ∀ e, n.alive e = true ↔
    .channel e ∈ roots ++ n.queued ∨ .value (.channel e) ∈ work
  cleared : ∀ e, n.alive e = false → (n.channel e).queue = []
  peers : ∀ e, e < n.next → n.peer e < n.next
  /-- The peer of an endpoint that is gone knows, or is going to be told. -/
  told : ∀ e, e < n.next → n.alive e = false → n.alive (n.peer e) = true →
    (n.channel (n.peer e)).isOpen = false ∨ .peer e ∈ work

theorem mem_queued (hfresh : ∀ e, n.next ≤ e → n.channel e = .new) :
    v ∈ n.queued ↔ ∃ e, v ∈ (n.channel e).queue.flatMap values := by
  unfold queued
  rw [mem_flatMap]
  constructor
  · rintro ⟨e, -, hv⟩
    exact ⟨e, hv⟩
  · rintro ⟨e, hv⟩
    refine ⟨e, mem_range.2 (Nat.lt_of_not_le fun hle => ?_), hv⟩
    rw [hfresh e hle] at hv
    cases hv

namespace Dropping

theorem fresh (h : Dropping n roots work) : ∀ e, n.next ≤ e → n.channel e = .new :=
  h.net.new

theorem skip (h : Dropping n roots (.value v :: work))
    (hv : ∀ e, v = .channel e → .channel e ∈ roots ++ n.queued ∨ .value (.channel e) ∈ work) :
    Dropping n roots work where
  net := h.net
  alive_iff e := by
    refine ⟨fun he => ?_, fun he => (h.alive_iff e).2 (he.imp_right (.tail _))⟩
    rcases (h.alive_iff e).1 he with hmem | hmem
    · exact .inl hmem
    · rcases mem_cons.1 hmem with heq | hmem
      · exact hv e (DropWork.value.inj heq).symm
      · exact .inr hmem
  cleared := h.cleared
  peers := h.peers
  told e he hdead hpeer := by
    refine (h.told e he hdead hpeer).imp_right fun hmem => ?_
    exact (mem_cons.1 hmem).resolve_left (by simp)

theorem tell (h : Dropping n roots (.peer e :: work)) : Dropping (n.closePeerOf e) roots work := by
  have hshrunk := n.closePeerOf_shrunk e
  have hqueued : (n.closePeerOf e).queued = n.queued := by
    simp only [queued, hshrunk.next, closePeerOf_queue]
  refine ⟨?_, fun x => ?_, fun x hx => ?_, ?_, fun x hx hdead hpeer => ?_⟩
  · exact h.net.keep (closePeerOf_endMove n e) hshrunk.next (closePeerOf_alive n e)
  · rw [closePeerOf_alive, hqueued, h.alive_iff x, mem_cons]
    simp
  · rw [closePeerOf_alive] at hx
    rw [closePeerOf_queue]
    exact h.cleared x hx
  · rw [hshrunk.next, hshrunk.peer]
    exact h.peers
  · rw [closePeerOf_alive] at hdead hpeer
    rw [hshrunk.peer] at hpeer ⊢
    rw [hshrunk.next] at hx
    rcases n.closePeerOf_cases e with ⟨hgone, hc⟩ | ⟨-, hc⟩
    · rw [hc]
      refine (h.told x hx hdead hpeer).imp_right fun hmem => ?_
      refine (mem_cons.1 hmem).resolve_left fun heq => ?_
      cases heq
      rw [hgone] at hpeer
      cases hpeer
    · rw [hc]
      by_cases hxe : n.peer x = n.peer e
      · rw [hxe, put_channel_self]
        exact .inl rfl
      · rw [put_channel_ne _ _ _ hxe]
        refine (h.told x hx hdead hpeer).imp_right fun hmem => ?_
        refine (mem_cons.1 hmem).resolve_left fun heq => ?_
        cases heq
        exact hxe rfl

theorem close (h : Dropping n roots (.value (.channel e) :: work)) (halive : n.alive e = true)
    (hfree : KernelValue.channel e ∉ roots ++ n.queued) (hwork : .value (.channel e) ∉ work) :
    Dropping (n.closeSelf e) roots
      (((n.channel e).queue.flatMap values).map .value ++ .peer e :: work) := by
  have hnet : (n.closeSelf e).Intact :=
    Ok.closeSelf h.net halive fun x hx => (closeSelf_alive_iff.1 hx).symm
  have hqueued : ∀ {v}, v ∈ n.queued ↔ v ∈ (n.closeSelf e).queued ∨
      v ∈ (n.channel e).queue.flatMap values := by
    intro v
    rw [mem_queued hnet.new, mem_queued h.fresh]
    constructor
    · rintro ⟨x, hx⟩
      by_cases hxe : x = e
      · exact .inr (hxe ▸ hx)
      · exact .inl ⟨x, by rwa [closeSelf_channel_ne n hxe]⟩
    · rintro (⟨x, hx⟩ | hx)
      · by_cases hxe : x = e
        · rw [hxe, closeSelf_channel_self] at hx
          cases hx
        · exact ⟨x, by rwa [closeSelf_channel_ne n hxe] at hx⟩
      · exact ⟨e, hx⟩
  refine ⟨hnet, fun x => ?_, fun x hx => ?_, ?_, fun x hx hdead hpeer => ?_⟩
  · rw [mem_append, hqueued] at hfree
    rw [closeSelf_alive_iff, h.alive_iff x, mem_append, mem_append, mem_append,
      hqueued, mem_map_of_injective fun _ _ => DropWork.value.inj, mem_cons,
      mem_cons, DropWork.value.injEq, KernelValue.channel.injEq]
    constructor
    · tauto
    · intro hx
      refine ⟨?_, by tauto⟩
      rintro rfl
      tauto
  · by_cases hxe : x = e
    · rw [hxe, closeSelf_channel_self]
      rfl
    · replace hx : update n.alive e false x = false := hx
      rw [update_of_ne hxe] at hx
      rw [closeSelf_channel_ne n hxe]
      exact h.cleared x hx
  · rw [closeSelf_peer]
    exact h.peers
  · rw [closeSelf_peer] at hpeer ⊢
    obtain ⟨hne, hpeer⟩ := closeSelf_alive_iff.1 hpeer
    by_cases hxe : x = e
    · rw [hxe]
      exact .inr (mem_append_right _ (.head _))
    · replace hdead : update n.alive e false x = false := hdead
      rw [update_of_ne hxe] at hdead
      rw [closeSelf_channel_ne n hne]
      refine (h.told x hx hdead hpeer).imp_right fun hmem => ?_
      exact mem_append_right _ (.tail _ ((mem_cons.1 hmem).resolve_left (by simp)))

end Dropping

/-! ## The work comes to an end -/

theorem sum_map_sub {f g : Nat → Nat} {l : List Nat} (hnodup : l.Nodup) (he : e ∈ l) {d : Nat}
    (hself : g e + d = f e) (hne : ∀ x, x ≠ e → g x = f x) :
    (l.map g).sum + d = (l.map f).sum := by
  induction l with
  | nil => cases he
  | cons x l ih =>
    obtain ⟨hx, hl⟩ := nodup_cons.1 hnodup
    rw [map_cons, map_cons, sum_cons, sum_cons]
    by_cases hxe : x = e
    · have hrest : l.map g = l.map f := map_congr_left fun y hy => hne y fun heq =>
        hx (hxe ▸ heq ▸ hy)
      rw [hrest, hxe]
      omega
    · have hmem : e ∈ l := (mem_cons.1 he).resolve_left fun heq => hxe heq.symm
      have := ih hl hmem
      rw [hne x hxe]
      omega

theorem dropFuel_closeSelf (work : List DropWork) (halive : n.alive e = true) (hlt : e < n.next) :
    (n.closeSelf e).dropFuel (((n.channel e).queue.flatMap values).map .value
      ++ .peer e :: work) < n.dropFuel (.value (.channel e) :: work) := by
  have hsum := sum_map_sub (e := e) (l := List.range n.next)
    (d := ((n.channel e).queue.flatMap values).length + 1)
    (f := fun x => if n.alive x then
      ((n.channel x).queue.flatMap values).length + 1 else 0)
    (g := fun x => if (n.closeSelf e).alive x then
      (((n.closeSelf e).channel x).queue.flatMap values).length + 1 else 0)
    nodup_range (mem_range.2 hlt) (by simp [halive, closeSelf]) (fun x hx => by
      rw [closeSelf_channel_ne n hx]
      simp [closeSelf, hx])
  simp only [dropFuel, length_append, length_map, length_cons]
  replace hsum : _ = (List.map _ (List.range n.next)).sum := hsum
  show _ + (List.map _ (List.range n.next)).sum < _
  omega

theorem dropFuel_tell (n : Endpoints) (e : Nat) (work : List DropWork) :
    (n.closePeerOf e).dropFuel work < n.dropFuel (.peer e :: work) := by
  simp only [dropFuel, (n.closePeerOf_shrunk e).next, closePeerOf_alive, closePeerOf_queue,
    length_cons]
  omega

/-- Dropping references leaves exactly the endpoints that still have one. -/
theorem Dropping.releaseWith {fuel : Nat} (h : Dropping n roots work)
    (hfuel : n.dropFuel work ≤ fuel) : Dropping (releaseWith fuel roots n work) roots [] := by
  have hcons : ∀ (item : DropWork) (rest : List DropWork),
      n.dropFuel rest < n.dropFuel (item :: rest) := by
    intro item rest
    simp only [dropFuel, length_cons]
    omega
  induction fuel generalizing n work with
  | zero =>
    have hnil : work = [] := by
      rw [← length_eq_zero_iff]
      unfold dropFuel at hfuel
      omega
    subst hnil
    exact h
  | succ fuel ih =>
    match work with
    | [] => exact h
    | .peer e :: work =>
      have := dropFuel_tell n e work
      exact ih h.tell (by omega) (fun _ _ => by simp only [dropFuel, length_cons]; omega)
    | .value v :: work =>
      have hlt := hcons (.value v) work
      have hskip : (∀ e, v = .channel e →
          .channel e ∈ roots ++ n.queued ∨ .value (.channel e) ∈ work) →
          Dropping (releaseWith fuel roots n work) roots [] :=
        fun hv => ih (h.skip hv) (by omega) hcons
      cases v with
      | channel e =>
        simp only [Endpoints.releaseWith]
        have halive := (h.alive_iff e).2 (.inr (.head _))
        split
        · next hcond =>
          have := dropFuel_closeSelf work halive (h.net.alive_lt e halive)
          exact ih (h.close halive hcond.2.1 hcond.2.2) (by omega)
            (fun _ _ => by simp only [dropFuel, length_cons]; omega)
        · next hcond =>
          refine hskip fun x hx => ?_
          cases hx
          by_cases hmem : KernelValue.channel e ∈ roots ++ n.queued
          · exact .inl hmem
          · exact .inr (Decidable.of_not_not fun hwork => hcond ⟨halive, hmem, hwork⟩)
      | message | process | port | interrupt => exact hskip fun _ hx => nomatch hx

end Endpoints

end Fioxa
