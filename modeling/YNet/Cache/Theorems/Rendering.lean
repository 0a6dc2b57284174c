import YNet.Cache.Rendering

namespace YNet

@[simp]
theorem Cache.run_load : (Cache.load f).run answer = answer f := by
  rw [Cache.load, Inquiry.run_ask]
  cases answer f <;> rfl

namespace TemplateEngine.Cached

variable {load : Bytes → Except Failure Bytes} {self : Bytes → JsonValue → Loading Bytes}
  {self' : Bytes → JsonValue → Except Failure Bytes}

section Tags

variable (h : ∀ tmpl vars, (self tmpl vars).run load = self' tmpl vars)

include h

theorem run_renderIf : (renderIf self insideBlock vars var).run load = TemplateEngine.renderIf self' insideBlock vars var := by
  cases var with
  | none     => rfl
  | some var =>
    rw [renderIf, TemplateEngine.renderIf]
    split
    · exact h ..
    · rfl

theorem run_renderEach : (renderEach self insideBlock var).run load = TemplateEngine.renderEach self' insideBlock var := by
  cases var with
  | none     => rfl
  | some var => simp [renderEach, TemplateEngine.renderEach, Inquiry.run_mapM, h]

-- Each branch of the code makes the same steps.
theorem run_renderTag :
    (renderTag self tmpl vars start).run load = TemplateEngine.renderTag load self' tmpl vars start := by
  unfold renderTag TemplateEngine.renderTag
  split
  case isTrue =>
    cases tmpl.find closeRaw start with
    | none      => rfl
    | some stop => simp
  case isFalse =>
    cases tmpl.find closeTag start with
    | none      => rfl
    | some stop =>
      simp only [Inquiry.run_bind, Inquiry.run_liftM]
      refine bind_congr fun obj => ?_
      split_ifs
      case pos =>
        simp only [Inquiry.run_bind, Inquiry.run_liftM]
        refine bind_congr fun varName => ?_
        cases tmpl.find closeIf (stop + 2) with
        | none       => rfl
        | some ifEnd => simp [run_renderIf h]
      case pos =>
        simp only [Inquiry.run_bind, Inquiry.run_liftM]
        refine bind_congr fun varName => ?_
        cases tmpl.find closeEach (stop + 2) with
        | none         => rfl
        | some eachEnd => simp [run_renderEach h]
      case pos => simp [h]
      case neg => simp

end Tags

theorem run_renderString : (renderString fuel tmpl vars).run load = TemplateEngine.renderString load fuel tmpl vars := by
  induction fuel generalizing tmpl vars with
  | zero         => rfl
  | succ fuel hi =>
    rw [renderString, TemplateEngine.renderString]
    cases tmpl.find openTag with
    | none       => rfl
    | some start =>
      simp only [Inquiry.run_bind, run_renderTag fun _ _ => hi]
      refine bind_congr fun output => ?_
      cases output with
      | none   => rfl
      | some p => simp [hi]

-- With fixed files, the engine renders what it renders without a cache.
theorem run_render : (render fuel filePath vars).run load = TemplateEngine.render load fuel filePath vars := by
  simp [render, TemplateEngine.render, run_renderString]

end TemplateEngine.Cached

theorem Response.run_render {res : Response} : (res.render true fuel file vars).run load =
    res.html <$> TemplateEngine.render load fuel file vars := by
  simp [Response.render, TemplateEngine.Cached.run_render]

end YNet
