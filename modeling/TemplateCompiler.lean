import TemplateCompiler.Proofs.Block.Described
import TemplateCompiler.Proofs.Block.Provided
import TemplateCompiler.Proofs.Block.Reactive
import TemplateCompiler.Proofs.Block.Registered
import TemplateCompiler.Proofs.Markup.Addressing
import TemplateCompiler.Proofs.Markup.Nesting
import TemplateCompiler.Proofs.Markup.Static
import TemplateCompiler.Proofs.Names.Around
import TemplateCompiler.Proofs.Names.Patterns
import TemplateCompiler.Proofs.Names.Replacing
import TemplateCompiler.Proofs.Props.Actions
import TemplateCompiler.Proofs.Props.Merged
import TemplateCompiler.Proofs.Props.Reserved
import TemplateCompiler.Proofs.Props.Sums
import TemplateCompiler.Proofs.Qualifying.Visits
import TemplateCompiler.Proofs.Regions.Conditions
import TemplateCompiler.Proofs.Regions.Slots
import TemplateCompiler.Proofs.Script.Mentioned
import TemplateCompiler.Proofs.Siblings.Append
import TemplateCompiler.Proofs.Template.Recondensing
import TemplateCompiler.Proofs.Texts.CamelCase
import TemplateCompiler.Proofs.Texts.Escaped
import TemplateCompiler.Proofs.Texts.Kept
import TemplateCompiler.Proofs.Transform.Supported
